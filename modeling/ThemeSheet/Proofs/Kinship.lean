import ThemeSheet.Proofs.Lineage
import Mathlib.Data.List.Range
import Mathlib.Logic.Relation

/-!
# Ancestors and children

A theme is asked for the ancestors of a style on the way up, and for roots and
children on the way down.  Both ways see one forest: the way up ends at a root,
roots and children share out the styles, and the ancestors of a style are those
from which steps to children lead to it.
-/

namespace ThemeSheet

namespace Theme

variable {theme : Theme} {style parent other : Style} {number : Nat}

/-- One step down. -/
def HasChild (theme : Theme) (parent child : Style) : Prop :=
  child ∈ theme.children parent.index

/-- The whole way up from a style: each style on it is the parent of the one
before, and the last is a root. -/
structure IsWayUp (theme : Theme) (style : Style) (line : List Style) : Prop where
  climbs : (style :: line).IsChain (fun below above => theme.parent? below = some above)
  decreasing : (style :: line).Pairwise (fun below above => above.index < below.index)
  ends : ∀ last ∈ (style :: line).getLast?, last.isRoot

theorem isRoot_iff : style.isRoot ↔ style.parent = none := Option.isNone_iff_eq_none

theorem mem_children_iff :
    other ∈ theme.children number ↔ other ∈ theme.styles ∧ other.parent = some number := by
  simp [children, List.mem_filter]

/-! ## One step -/

section Ordered

variable (hordered : theme.Ordered)

include hordered

theorem Ordered.style?_index (hstyle : style ∈ theme.styles) :
    theme.style? style.index = some style := by
  obtain ⟨index, hindex⟩ := List.getElem?_of_mem hstyle
  rw [(hordered index style hindex).1]
  exact hindex

theorem Ordered.parent?_eq_none_iff (hstyle : style ∈ theme.styles) :
    theme.parent? style = none ↔ style.isRoot := by
  rw [isRoot_iff]
  constructor
  · intro hnone
    cases hparent : style.parent with
    | none => rfl
    | some number =>
        obtain ⟨parent, hsome, -⟩ := hordered.parent_mem hstyle hparent
        rw [hnone] at hsome
        cases hsome
  · intro hroot
    rw [parent?, hroot]
    rfl

/-- Parents and children are the same edges, read in the two directions. -/
theorem Ordered.hasChild_iff (hparent : parent ∈ theme.styles) :
    theme.HasChild parent style ↔ style ∈ theme.styles ∧ theme.parent? style = some parent := by
  rw [HasChild, mem_children_iff, and_congr_right_iff]
  intro hstyle
  constructor
  · intro hnumber
    rw [parent?, hnumber]
    exact hordered.style?_index hparent
  · intro hfound
    obtain ⟨number, hnumber, hget⟩ := Option.bind_eq_some_iff.mp hfound
    rw [hnumber, (hordered number parent hget).1]

/-- What holds of the roots and goes on from parents to their children holds of
all styles. -/
theorem Ordered.induction {P : Style → Prop}
    (hroot : ∀ style ∈ theme.styles, style.isRoot → P style)
    (hbelow : ∀ style ∈ theme.styles, ∀ parent ∈ theme.styles,
      theme.parent? style = some parent → parent.index < style.index →
        P parent → P style) :
    ∀ style ∈ theme.styles, P style := by
  intro style hstyle
  induction hindex : style.index using Nat.strong_induction_on generalizing style with
  | _ index ih =>
      cases hparent : theme.parent? style with
      | none => exact hroot style hstyle ((hordered.parent?_eq_none_iff hstyle).mp hparent)
      | some parent =>
          obtain ⟨hmem, hlt⟩ := hordered.index_lt hparent hstyle
          exact hbelow style hstyle parent hmem hparent hlt
            (ih parent.index (hindex ▸ hlt) parent hmem rfl)

/-! ## The way up -/

theorem Ordered.ancestors_eq_nil_iff (hstyle : style ∈ theme.styles) :
    theme.ancestors style = [] ↔ style.isRoot := by
  rw [← hordered.parent?_eq_none_iff hstyle]
  constructor
  · intro hnil
    cases hparent : theme.parent? style with
    | none => rfl
    | some parent =>
        rw [hordered.ancestors_eq_cons hstyle hparent] at hnil
        cases hnil
  · exact ancestors_of_parent?_eq_none

theorem Ordered.isWayUp_ancestors :
    ∀ style ∈ theme.styles, theme.IsWayUp style (theme.ancestors style) := by
  refine hordered.induction
    (P := fun style => theme.IsWayUp style (theme.ancestors style)) ?_ ?_
  · intro style hstyle hroot
    rw [(hordered.ancestors_eq_nil_iff hstyle).mpr hroot]
    exact ⟨List.isChain_singleton _, List.pairwise_singleton _ _, by simpa using hroot⟩
  · intro style hstyle parent hmem hparent hlt hup
    rw [hordered.ancestors_eq_cons hstyle hparent]
    refine ⟨List.isChain_cons_cons.mpr ⟨hparent, hup.climbs⟩, ?_, ?_⟩
    · -- what is above the parent has a smaller number still
      rw [List.pairwise_cons]
      refine ⟨?_, hup.decreasing⟩
      intro above habove
      rcases List.mem_cons.mp habove with rfl | habove
      · exact hlt
      · exact ((List.pairwise_cons.mp hup.decreasing).1 above habove).trans hlt
    · rw [List.getLast?_cons_cons]
      exact hup.ends

/-- A climb that may take more steps than there are styles takes no more. -/
theorem Ordered.climb_eq_ancestors (hstyle : style ∈ theme.styles) {steps : Nat}
    (hsteps : theme.styles.length ≤ steps) :
    theme.climb steps style = theme.ancestors style := by
  obtain ⟨index, hindex⟩ := List.getElem?_of_mem hstyle
  have hself := (hordered index style hindex).1
  have hlt := (List.getElem?_eq_some_iff.mp hindex).1
  exact hordered.climb_eq hstyle (by omega) (by omega)

/-! ## The way down -/

theorem Ordered.map_index_styles :
    theme.styles.map (·.index) = List.range theme.styles.length := by
  apply List.ext_getElem
  · simp
  · intro index hleft hright
    rw [List.getElem_map, List.getElem_range]
    rw [List.length_map] at hleft
    exact (hordered index _ (List.getElem?_eq_getElem hleft)).1

theorem Ordered.nodup_styles : theme.styles.Nodup := by
  apply List.Nodup.of_map (·.index)
  rw [hordered.map_index_styles]
  exact List.nodup_range

omit hordered in
/-- Roots and the children of small numbers are the styles with small parents. -/
theorem roots_append_children_perm (bound : Nat) :
    (theme.roots ++ (List.range bound).flatMap theme.children).Perm
      (theme.styles.filter (fun style => style.parent.all (· < bound))) := by
  induction bound with
  | zero =>
      rw [List.range_zero, List.flatMap_nil, List.append_nil, roots]
      refine List.Perm.of_eq (List.filter_congr fun style _ => ?_)
      cases hparent : style.parent <;> simp [Style.isRoot, hparent]
  | succ bound ih =>
      -- the children of the last number are what the larger bound adds
      have hsplit := List.filter_append_perm (fun style => style.parent.all (· < bound))
        (theme.styles.filter (fun style : Style => style.parent.all (· < bound + 1)))
      rw [List.filter_filter, List.filter_filter] at hsplit
      rw [List.range_succ, List.flatMap_append, ← List.append_assoc, List.flatMap_singleton]
      refine (ih.append_right _).trans (.trans (.of_eq ?_) hsplit)
      congr 1 <;> refine List.filter_congr fun style _ => ?_
      · cases style.parent with
        | none => rfl
        | some number =>
            rw [Bool.eq_iff_iff]
            simp only [Option.all_some, Bool.and_eq_true, decide_eq_true_eq]
            omega
      · cases style.parent with
        | none => simp
        | some number =>
            rw [Bool.eq_iff_iff]
            simp only [Option.all_some, Bool.and_eq_true, Bool.not_eq_true',
              decide_eq_true_eq, decide_eq_false_iff_not, Option.some.injEq]
            omega

theorem Ordered.roots_append_children_perm_styles {bound : Nat}
    (hbound : theme.styles.length ≤ bound) :
    (theme.roots ++ (List.range bound).flatMap theme.children).Perm theme.styles := by
  refine (roots_append_children_perm bound).trans (.of_eq ?_)
  apply List.filter_eq_self.mpr
  intro style hstyle
  obtain ⟨index, hindex⟩ := List.getElem?_of_mem hstyle
  have hlt := (List.getElem?_eq_some_iff.mp hindex).1
  have hparents := (hordered index style hindex).2
  cases hparent : style.parent with
  | none => rfl
  | some number =>
      have hnumber := hparents number hparent
      simp only [Option.all_some, decide_eq_true_eq]
      omega

/-! ## Both ways -/

theorem Ordered.transGen_hasChild_iff (hother : other ∈ theme.styles)
    (hmem : parent ∈ theme.styles) (hstyle : style ∈ theme.styles)
    (hparent : theme.parent? style = some parent) :
    Relation.TransGen theme.HasChild other style ↔
      other = parent ∨ Relation.TransGen theme.HasChild other parent := by
  have honly : ∀ above ∈ theme.styles, theme.HasChild above style → above = parent := by
    intro above habove hchild
    have hfound := ((hordered.hasChild_iff habove).mp hchild).2
    rw [hparent, Option.some.injEq] at hfound
    exact hfound.symm
  have hchild : theme.HasChild parent style := (hordered.hasChild_iff hmem).mpr ⟨hstyle, hparent⟩
  constructor
  · intro hsteps
    cases hsteps with
    | single hlast => exact .inl (honly other hother hlast)
    | @tail above _ hfirst hlast =>
        have habove : above ∈ theme.styles := by
          cases hfirst with
          | single hstep => exact (mem_children_iff.mp hstep).1
          | tail _ hstep => exact (mem_children_iff.mp hstep).1
        rw [← honly above habove hlast]
        exact .inr hfirst
  · rintro (rfl | hsteps)
    · exact .single hchild
    · exact .tail hsteps hchild

omit hordered in
theorem not_transGen_hasChild_of_isRoot (hroot : style.isRoot) :
    ¬Relation.TransGen theme.HasChild other style := by
  rw [isRoot_iff] at hroot
  intro hsteps
  obtain ⟨above, -, hlast⟩ := Relation.TransGen.tail'_iff.mp hsteps
  have hparent := (mem_children_iff.mp hlast).2
  rw [hroot] at hparent
  cases hparent

theorem Ordered.mem_ancestors_iff (hother : other ∈ theme.styles) :
    ∀ style ∈ theme.styles,
      (other ∈ theme.ancestors style ↔ Relation.TransGen theme.HasChild other style) := by
  refine hordered.induction
    (P := fun style => other ∈ theme.ancestors style ↔
      Relation.TransGen theme.HasChild other style) ?_ ?_
  · intro style hstyle hroot
    rw [(hordered.ancestors_eq_nil_iff hstyle).mpr hroot]
    exact iff_of_false List.not_mem_nil (not_transGen_hasChild_of_isRoot hroot)
  · intro style hstyle parent hmem hparent hlt ih
    rw [hordered.ancestors_eq_cons hstyle hparent, List.mem_cons, ih,
      hordered.transGen_hasChild_iff hother hmem hstyle hparent]

end Ordered

end Theme

/-- Ancestors, roots and children of a theme that was built are those of one
forest. -/
theorem kinship_of_build {options : LoadOptions} {source : String} {rules : List Rule}
    {theme : Theme} (hbuild : (options.build source rules).1 = .ok theme) :
    (∀ style ∈ theme.styles,
      theme.IsWayUp style (theme.ancestors style) ∧
      (∀ steps, theme.styles.length ≤ steps →
        theme.climb steps style = theme.ancestors style) ∧
      (theme.ancestors style = [] ↔ style.isRoot)) ∧
    theme.styles.Nodup ∧
    (∀ bound, theme.styles.length ≤ bound →
      (theme.roots ++ (List.range bound).flatMap theme.children).Perm theme.styles) ∧
    ∀ style ∈ theme.styles, ∀ other ∈ theme.styles,
      (other ∈ theme.ancestors style ↔ Relation.TransGen theme.HasChild other style) := by
  have hordered := ordered_of_build hbuild
  refine ⟨?_, hordered.nodup_styles, ?_, ?_⟩
  · intro style hstyle
    exact ⟨hordered.isWayUp_ancestors style hstyle,
      fun steps => hordered.climb_eq_ancestors hstyle,
      hordered.ancestors_eq_nil_iff hstyle⟩
  · intro bound
    exact hordered.roots_append_children_perm_styles
  · intro style hstyle other hother
    exact hordered.mem_ancestors_iff hother style hstyle

/-- Two roots, and a button two steps below the first. -/
def buttonRules : List Rule :=
  [⟨["Theme"], [⟨"Name", "Plain"⟩]⟩,
    ⟨["Window Group Button", "Window Label"], [⟨"color", "red"⟩]⟩,
    ⟨["Label"], [⟨"color", "green"⟩]⟩]

theorem kinship_of_build_buttonRules :
    ∃ theme window button,
      (({} : LoadOptions).build "plain.css" buttonRules).1 = .ok theme ∧
      theme.style? 0 = some window ∧ theme.style? 2 = some button ∧
      theme.IsWayUp button (theme.ancestors button) ∧
      Relation.TransGen theme.HasChild window button ∧
      (theme.roots ++ (List.range theme.styles.length).flatMap theme.children).Perm
        theme.styles := by
  obtain ⟨theme, window, button, hbuild, hfirst, hthird, hancestor⟩ :
      ∃ theme window button,
        (({} : LoadOptions).build "plain.css" buttonRules).1 = .ok theme ∧
        theme.style? 0 = some window ∧ theme.style? 2 = some button ∧
        (theme.ancestors button)[1]? = some window :=
    ⟨_, _, _, rfl, rfl, rfl, rfl⟩
  obtain ⟨hup, -, hshared, hsame⟩ := kinship_of_build hbuild
  have hwindow := List.mem_of_getElem? hfirst
  have hbutton := List.mem_of_getElem? hthird
  refine ⟨theme, window, button, hbuild, hfirst, hthird, ?_, ?_, ?_⟩
  · exact (hup button hbutton).1
  · exact (hsame button hbutton window hwindow).mp (List.mem_of_getElem? hancestor)
  · exact hshared _ le_rfl

end ThemeSheet
