import ThemeSheet.Number.Rounding
import ThemeSheet.Text.Blank

/-!
# Vectors

A vector is written as up to three numbers with commas between them.  A
single number stands for all three components, and a third one that is left
out is zero.
-/

namespace ThemeSheet

structure Vector3 where
  x : Float32
  y : Float32
  z : Float32
deriving BEq, Repr

inductive VectorFault where
  | emptyComponent
  | notANumber
  | wrongCount
deriving DecidableEq, Repr

def VectorFault.message : VectorFault → String
  | emptyComponent => "empty component"
  | notANumber => "component is not a number"
  | wrongCount => "expected 1 to 3 components"

structure VectorError where
  value : String
  reason : VectorFault
deriving DecidableEq, Repr

def VectorError.message (err : VectorError) : String :=
  "Invalid vector value \"" ++ err.value ++ "\": " ++ err.reason.message

namespace Vector3

def pieces (value : String) : List (List Char) :=
  (value.toList.splitOnP (· = ',')).map trimBlank

def readPiece (piece : List Char) : Except VectorFault Float32 :=
  if piece.isEmpty then .error .emptyComponent
  else
    match (readFloat32? piece).filter Float32.isFinite with
    | some x => .ok x
    | none => .error .notANumber

def ofComponents : List Float32 → Except VectorFault Vector3
  | [x] => .ok ⟨x, x, x⟩
  | [x, y] => .ok ⟨x, y, 0⟩
  | [x, y, z] => .ok ⟨x, y, z⟩
  | _ => .error .wrongCount

/-- Reads a vector.  The first piece that is no number decides what is wrong,
and their count only if there is none. -/
def parse (value : String) : Except VectorError Vector3 :=
  (((pieces value).mapM readPiece).bind ofComponents).mapError
    (fun reason => ⟨value, reason⟩)

end Vector3

end ThemeSheet
