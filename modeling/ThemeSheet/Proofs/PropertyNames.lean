import ThemeSheet.Proofs.Cascade

/-!
# Names below a path

The name of a property below a path has the state of the declared name, the path
and the field in it, and nothing but hyphens and a point to tell them apart.  The
point in front of the field is the last one as long as fields have none.  Where a
state ends, though, a path may go on with what could be the rest of it: so two
paths can lead to one name.
-/

namespace ThemeSheet

/-! ## States -/

/-- What stands in front of a field: nothing, or a word without hyphens and then
one hyphen or two. -/
inductive IsState : List Char → Prop where
  | none : IsState []
  | single {word : List Char} (hword : '-' ∉ word) (hne : word ≠ []) :
      IsState (word ++ ['-'])
  | double {word : List Char} (hword : '-' ∉ word) (hne : word ≠ []) :
      IsState (word ++ ['-', '-'])

section States

variable {name state rest word : List Char}

theorem not_mem_takeWhile_ne (c : Char) (text : List Char) :
    c ∉ text.takeWhile (· ≠ c) := by
  intro hmem
  simpa using List.mem_takeWhile_imp hmem

theorem splitState_forms (name : List Char) :
    IsState (Property.splitState name).1 ∧
      (Property.splitState name).1 ++ (Property.splitState name).2 = name := by
  have hword := not_mem_takeWhile_ne '-' name
  have hname := List.takeWhile_append_dropWhile (p := (· ≠ '-')) (l := name)
  unfold Property.splitState
  simp only
  split
  next => exact ⟨.none, rfl⟩
  next hne =>
    have hne : name.takeWhile (· ≠ '-') ≠ [] := by simpa using hne
    split
    next field hrest =>
      rw [hrest] at hname
      exact ⟨.double hword hne, by rw [List.append_assoc]; exact hname⟩
    next field _ hrest =>
      rw [hrest] at hname
      exact ⟨.single hword hne, by rw [List.append_assoc]; exact hname⟩
    next => exact ⟨.none, rfl⟩

theorem not_mem_field {c : Char} (hname : c ∉ name) : c ∉ (Property.splitState name).2 :=
  fun hmem => hname ((splitState_forms name).2 ▸ List.mem_append_right _ hmem)

theorem append_cons_inj {c : Char} {front back other behind : List Char}
    (heq : front ++ c :: back = other ++ c :: behind)
    (happart : c ∉ front ∧ c ∉ other ∨ c ∉ back ∧ c ∉ behind) :
    front = other ∧ back = behind := by
  rcases List.append_eq_append_iff.mp heq with ⟨more, rfl, hmore⟩ | ⟨more, rfl, hmore⟩ <;>
    cases more <;> simp_all

theorem IsState.hyphen_mem (hstate : IsState state) (hne : state ≠ []) : '-' ∈ state := by
  cases hstate with
  | none => exact absurd rfl hne
  | single => simp
  | double => simp

/-- A state that goes on where another state ends has no other in front, or adds
the second hyphen to the first. -/
theorem IsState.eq_nil_or_eq_hyphen (hstate : IsState state)
    (hlonger : IsState (state ++ rest)) (hrest : rest ≠ []) :
    state = [] ∨ rest = ['-'] := by
  generalize hwhole : state ++ rest = whole at hlonger
  cases hstate with
  | none => exact .inl rfl
  | @single word hword hne =>
      right
      rw [List.append_assoc, List.singleton_append] at hwhole
      cases hlonger with
      | none => simp at hwhole
      | single hother _ => exact absurd (append_cons_inj hwhole (.inl ⟨hword, hother⟩)).2 hrest
      | double hother _ => exact (append_cons_inj hwhole (.inl ⟨hword, hother⟩)).2
  | @double word hword hne =>
      rw [List.append_assoc, List.cons_append, List.singleton_append] at hwhole
      cases hlonger with
      | none => simp at hwhole
      | single hother _ =>
          cases (append_cons_inj hwhole (.inl ⟨hword, hother⟩)).2
      | double hother _ =>
          have hhyphens := (append_cons_inj hwhole (.inl ⟨hword, hother⟩)).2
          exact absurd (List.cons.inj hhyphens).2 hrest

end States

/-! ## Paths that lead to one name -/

section Paths

variable {selector other : String} {path otherPath : List Char} {name second : List Char}

theorem nameUnder_of_path (hpath : (cutPath selector.toList).2 = some path)
    (name : List Char) :
    Property.nameUnder selector.toList name =
      (Property.splitState name).1 ++ path ++ '.' :: (Property.splitState name).2 := by
  rw [Property.nameUnder, hpath]

theorem nameUnder_eq_iff (hpath : (cutPath selector.toList).2 = some path)
    (hother : (cutPath other.toList).2 = some otherPath)
    (hname : '.' ∉ name) (hsecond : '.' ∉ second) :
    Property.nameUnder selector.toList name = Property.nameUnder other.toList second ↔
      (Property.splitState name).1 ++ path = (Property.splitState second).1 ++ otherPath ∧
      (Property.splitState name).2 = (Property.splitState second).2 := by
  rw [nameUnder_of_path hpath, nameUnder_of_path hother]
  constructor
  · intro heq
    exact append_cons_inj heq (.inr ⟨not_mem_field hname, not_mem_field hsecond⟩)
  · rintro ⟨hfront, hfield⟩
    rw [hfront, hfield]

/-- Whether a path begins with what the name below the other path has as its state,
or as the second hyphen of its state. -/
def Borrows (name path second otherPath : List Char) : Prop :=
  (Property.splitState name).2 = (Property.splitState second).2 ∧
    ((Property.splitState second).1 = [] ∧
        otherPath = (Property.splitState name).1 ++ path ∨
      (Property.splitState name).1 = (Property.splitState second).1 ++ ['-'] ∧
        otherPath = '-' :: path)

instance : Decidable (Borrows name path second otherPath) :=
  inferInstanceAs (Decidable (_ ∧ _))

/-- Whether one of two names takes from the path of the other. -/
def Collide (name path second otherPath : List Char) : Prop :=
  Borrows name path second otherPath ∨ Borrows second otherPath name path

instance : Decidable (Collide name path second otherPath) :=
  inferInstanceAs (Decidable (_ ∨ _))

theorem Borrows.append_eq (hborrows : Borrows name path second otherPath) :
    (Property.splitState name).1 ++ path =
      (Property.splitState second).1 ++ otherPath := by
  rcases hborrows with ⟨-, ⟨hnone, rfl⟩ | ⟨hstate, rfl⟩⟩
  · rw [hnone, List.nil_append]
  · rw [hstate, List.append_assoc, List.singleton_append]

/-- Where the state of one name goes on behind that of the other, what it has more
stands at the beginning of the other path. -/
theorem borrows_of_append_eq {more : List Char}
    (hstate : (Property.splitState name).1 = (Property.splitState second).1 ++ more)
    (hpath : otherPath = more ++ path) (hmore : more ≠ [])
    (hfield : (Property.splitState name).2 = (Property.splitState second).2) :
    Borrows name path second otherPath := by
  have hlonger := (splitState_forms name).1
  rw [hstate] at hlonger
  rcases (splitState_forms second).1.eq_nil_or_eq_hyphen hlonger hmore with hnone | rfl
  · exact ⟨hfield, .inl ⟨hnone, by rw [hpath, hstate, hnone, List.nil_append]⟩⟩
  · exact ⟨hfield, .inr ⟨hstate, hpath⟩⟩

theorem nameUnder_eq_iff_collide (hpath : (cutPath selector.toList).2 = some path)
    (hother : (cutPath other.toList).2 = some otherPath) (hne : path ≠ otherPath)
    (hname : '.' ∉ name) (hsecond : '.' ∉ second) :
    Property.nameUnder selector.toList name = Property.nameUnder other.toList second ↔
      Collide name path second otherPath := by
  rw [nameUnder_eq_iff hpath hother hname hsecond]
  constructor
  · rintro ⟨hfront, hfield⟩
    rcases List.append_eq_append_iff.mp hfront with
      ⟨more, hstate, hmore⟩ | ⟨more, hstate, hmore⟩
    · refine .inr (borrows_of_append_eq hstate hmore ?_ hfield.symm)
      rintro rfl
      exact hne hmore
    · refine .inl (borrows_of_append_eq hstate hmore ?_ hfield)
      rintro rfl
      exact hne hmore.symm
  · rintro (hborrows | hborrows)
    · exact ⟨hborrows.append_eq, hborrows.1⟩
    · exact ⟨hborrows.append_eq.symm, hborrows.1.symm⟩

theorem Borrows.hyphen_mem (hborrows : Borrows name path second otherPath)
    (hne : path ≠ otherPath) : '-' ∈ otherPath := by
  rcases hborrows with ⟨-, ⟨-, rfl⟩ | ⟨-, rfl⟩⟩
  · refine List.mem_append_left path ((splitState_forms name).1.hyphen_mem ?_)
    intro hnone
    rw [hnone] at hne
    exact hne rfl
  · exact List.mem_cons_self

theorem Collide.hyphen_mem (hcollide : Collide name path second otherPath)
    (hne : path ≠ otherPath) : '-' ∈ path ∨ '-' ∈ otherPath := by
  rcases hcollide with hborrows | hborrows
  · exact .inr (hborrows.hyphen_mem hne)
  · exact .inl (hborrows.hyphen_mem hne.symm)

end Paths

/-! ## Declarations for two parts of one element -/

section Parts

variable {selector other : String} {path otherPath : List Char}

theorem name_eq_iff_collide {first second : Declaration}
    (hpath : (cutPath selector.toList).2 = some path)
    (hother : (cutPath other.toList).2 = some otherPath) (hne : path ≠ otherPath)
    (hfirst : '.' ∉ first.name.toList) (hsecond : '.' ∉ second.name.toList) :
    (Property.ofDeclaration selector first).name =
        (Property.ofDeclaration other second).name ↔
      Collide first.name.toList path second.name.toList otherPath := by
  rw [← nameUnder_eq_iff_collide hpath hother hne hfirst hsecond]
  exact String.ofList_inj

/-- Below different paths, two names come out the same exactly if they collide.  Of
the declarations for one part of an element, those for another part leave the ones
that they do not collide with. -/
theorem ofDeclaration_below_paths
    (hpath : (cutPath selector.toList).2 = some path)
    (hother : (cutPath other.toList).2 = some otherPath) (hne : path ≠ otherPath) :
    (∀ first second : Declaration,
        '.' ∉ first.name.toList → '.' ∉ second.name.toList →
        ((Property.ofDeclaration selector first).name =
            (Property.ofDeclaration other second).name ↔
          Collide first.name.toList path second.name.toList otherPath)) ∧
      (∀ first second : Declaration,
        Collide first.name.toList path second.name.toList otherPath →
        '-' ∈ path ∨ '-' ∈ otherPath) ∧
      ∀ (style : Style) (declarations : List Declaration),
        (∀ second ∈ declarations, '.' ∉ second.name.toList) →
        ∃ kept,
          (style.declare (declarations.map (Property.ofDeclaration other))).properties =
            kept ++ declarations.map (Property.ofDeclaration other) ∧
          ∀ first : Declaration, '.' ∉ first.name.toList →
            Property.ofDeclaration selector first ∈ style.properties →
            (Property.ofDeclaration selector first ∈ kept ↔
              ∀ second ∈ declarations,
                ¬ Collide first.name.toList path second.name.toList otherPath) := by
  refine ⟨fun first second => name_eq_iff_collide hpath hother hne,
    fun first second hcollide => hcollide.hyphen_mem hne, ?_⟩
  intro style declarations hdeclarations
  refine ⟨_, rfl, ?_⟩
  intro first hfirst hproperty
  simp only [List.mem_filter, Bool.not_eq_true', ← Bool.not_eq_true,
    contains_iff_name_mem, List.map_map, List.mem_map, Function.comp_apply, not_exists,
    not_and]
  constructor
  · rintro ⟨-, hnamed⟩ second hsecond hcollide
    exact hnamed second hsecond
      ((name_eq_iff_collide hpath hother hne hfirst
        (hdeclarations second hsecond)).mpr hcollide).symm
  · intro hapart
    refine ⟨hproperty, fun second hsecond hname => hapart second hsecond ?_⟩
    exact (name_eq_iff_collide hpath hother hne hfirst
      (hdeclarations second hsecond)).mp hname.symm

def labelStyle : Style :=
  ⟨0, none, ⟨"A", none, none⟩, [⟨"hover-Label.color", "red"⟩, ⟨"Label.width", "2"⟩]⟩

/-- A declaration for a part of `labelStyle` is left by one for another part. -/
theorem ofDeclaration_below_paths_labelStyle :
    (cutPath "A::Label".toList).2 = some "Label".toList ∧
      (cutPath "A::Icon".toList).2 = some "Icon".toList ∧
      "Label".toList ≠ "Icon".toList ∧
      ∃ kept,
        (labelStyle.declare [⟨"hover-Icon.color", "blue"⟩]).properties =
          kept ++ [⟨"hover-Icon.color", "blue"⟩] ∧
        Property.ofDeclaration "A::Label" ⟨"hover-color", "red"⟩ ∈ kept := by
  have hlabel : (cutPath "A::Label".toList).2 = some "Label".toList := rfl
  have hicon : (cutPath "A::Icon".toList).2 = some "Icon".toList := rfl
  have hne : "Label".toList ≠ "Icon".toList := by decide
  obtain ⟨-, -, hkept⟩ := ofDeclaration_below_paths hlabel hicon hne
  obtain ⟨kept, hproperties, hleft⟩ := hkept labelStyle [⟨"hover-color", "blue"⟩] (by decide)
  have hfirst : Property.ofDeclaration "A::Label" ⟨"hover-color", "red"⟩ ∈
      labelStyle.properties := List.mem_of_getElem? (i := 0) rfl
  exact ⟨hlabel, hicon, hne, kept, hproperties,
    (hleft ⟨"hover-color", "red"⟩ (by decide) hfirst).mpr (by decide)⟩

def borrowedRules : List Rule :=
  [⟨["Theme"], [⟨"Name", "Plain"⟩]⟩, ⟨["A::b"], [⟨"x-c", "1"⟩]⟩,
    ⟨["A::x-b"], [⟨"c", "2"⟩]⟩]

/-- The path `x-b` begins with the state of `x-c`: both declarations are for `x-b.c`,
and the second takes the place of the first. -/
theorem collide_borrowedRules :
    target? "A::b" = target? "A::x-b" ∧
      (cutPath "A::b".toList).2 = some "b".toList ∧
      (cutPath "A::x-b".toList).2 = some "x-b".toList ∧
      '.' ∉ "x-c".toList ∧ '.' ∉ "c".toList ∧
      (Property.ofDeclaration "A::b" ⟨"x-c", "1"⟩).name =
        (Property.ofDeclaration "A::x-b" ⟨"c", "2"⟩).name ∧
      ∃ theme,
        (({} : LoadOptions).build "plain.css" borrowedRules).1 = .ok theme ∧
        theme.styles = [⟨0, none, ⟨"A", none, none⟩, [⟨"x-b.c", "2"⟩]⟩] :=
  ⟨rfl, rfl, rfl, by decide, by decide, rfl, _, rfl, rfl⟩

end Parts

end ThemeSheet
