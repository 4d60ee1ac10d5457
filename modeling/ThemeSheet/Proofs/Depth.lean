import ThemeSheet.Proofs.Hierarchy

/-!
# The depth of what selectors style

A selector with as many segments as its style has ancestors, and one more, is
at home where it says it is.  Bare segments at the front are why others are
not: several of them are one style, and below them a root may turn out to be
the root of somebody else.
-/

namespace ThemeSheet

def bareCount (line : List Selector) : Nat := (line.takeWhile Selector.isBare).length

theorem length_eq_bareCount_add (line : List Selector) :
    line.length = bareCount line + (named line).length := by
  unfold bareCount named
  rw [← List.length_append, List.takeWhile_append_dropWhile]

/-- Whether a selector has as many bare segments at the front as the style of
its first text has above it. -/
def KeepsDepth (rules : List Rule) (selector : String) : Prop :=
  bareCount (chain selector) =
    match named (chain selector) with
    | [] => 1
    | top :: _ => (isSunk rules top).toNat

theorem length_settledLine_eq_iff (rules : List Rule) (selector : String) :
    (settledLine rules (chain selector)).length = (chain selector).length ↔
      KeepsDepth rules selector := by
  have hlength := length_eq_bareCount_add (chain selector)
  unfold KeepsDepth settledLine
  cases hnamed : named (chain selector) with
  | nil =>
      rw [hnamed, List.length_nil] at hlength
      simp only [List.length_singleton]
      omega
  | cons top rest =>
      rw [hnamed] at hlength
      simp only [List.length_append]
      cases hsunk : isSunk rules top with
      | true =>
          simp only [if_true, List.length_singleton, Bool.toNat_true]
          omega
      | false =>
          simp only [Bool.false_eq_true, if_false, List.length_nil, Bool.toNat_false]
          omega

theorem keepsDepth_of_beginsNamed {rules : List Rule}
    (hfirst : BeginsNamed rules)
    {selector : String} (hselector : selector ∈ styledSelectors rules)
    (hsegments : chain selector ≠ []) : KeepsDepth rules selector := by
  have hline : chain selector ∈ styledLines rules :=
    mem_styledLines.mpr ⟨hsegments, selector, hselector, List.prefix_refl _⟩
  rw [← length_settledLine_eq_iff, settledLine_eq_self hfirst hline]

/-- The style of a selector with `k` segments has `k - 1` ancestors exactly if
the selector keeps its depth. -/
theorem length_ancestors_iff_keepsDepth
    {options : LoadOptions} {source : String} {rules : List Rule} {theme : Theme}
    (hbuild : (options.build source rules).1 = .ok theme)
    {selector : String} (hselector : selector ∈ styledSelectors rules)
    (hsegments : segments selector ≠ []) :
    ∃ place style,
      target? selector = some place ∧
      (StyleForest.ofRules rules).styleAt? place = some style ∧
      style ∈ theme.styles ∧
      ((theme.ancestors style).length = (segments selector).length - 1 ↔
        KeepsDepth rules selector) := by
  have hchain : (chain selector).length = (segments selector).length :=
    List.length_map Selector.ofSegment
  have hpositive := List.length_pos_of_ne_nil hsegments
  have hline : chain selector ∈ styledLines rules := by
    apply mem_styledLines.mpr
    exact ⟨by simpa [chain] using hsegments, selector, hselector, List.prefix_refl _⟩
  obtain ⟨place, style, hplace, hstyle, hmem⟩ :=
    exists_styleAt?_of_mem_styledLines hbuild hline
  have hlineage := lineage_eq_settledLine hbuild hline hplace hstyle
  have hlength : (theme.ancestors style).length + 1 =
      (settledLine rules (chain selector)).length := by
    rw [← hlineage]
    simp [Theme.lineage]
  refine ⟨place, style, hplace, hstyle, hmem, ?_⟩
  rw [← length_settledLine_eq_iff, ← hlength, hchain]
  omega

/-- Rules that find a root below a bare segment and then by itself. -/
def sunkenRules : List Rule :=
  [⟨["Theme"], [⟨"Name", "Plain"⟩]⟩,
    ⟨["::Title Label"], [⟨"color", "red"⟩]⟩,
    ⟨["Label"], [⟨"color", "green"⟩]⟩]

/-- `Label` has one segment, and its style has a parent. -/
theorem ancestors_ne_nil_of_sunkenRules :
    ∃ theme place style,
      (({} : LoadOptions).build "plain.css" sunkenRules).1 = .ok theme ∧
      "Label" ∈ styledSelectors sunkenRules ∧
      segments "Label" = ["Label"] ∧
      target? "Label" = some place ∧
      (StyleForest.ofRules sunkenRules).styleAt? place = some style ∧
      style ∈ theme.styles ∧
      (theme.ancestors style).length = 1 := by
  refine ⟨_, ⟨[], ['L', 'a', 'b', 'e', 'l']⟩,
    .mk 1 (some 0) ⟨"Label", none, none⟩
      [⟨"Title Label.color", "red"⟩, ⟨"color", "green"⟩],
    rfl, by decide, by decide, by decide, rfl, ?_, rfl⟩
  exact List.mem_of_getElem? (i := 1) rfl

theorem length_ancestors_iff_keepsDepth_sunkenRules :
    ∃ theme place style,
      (({} : LoadOptions).build "plain.css" sunkenRules).1 = .ok theme ∧
      "::Title Label" ∈ styledSelectors sunkenRules ∧
      segments "::Title Label" ≠ [] ∧
      target? "::Title Label" = some place ∧
      (StyleForest.ofRules sunkenRules).styleAt? place = some style ∧
      style ∈ theme.styles ∧
      ((theme.ancestors style).length = (segments "::Title Label").length - 1 ↔
        KeepsDepth sunkenRules "::Title Label") := by
  obtain ⟨theme, hbuild⟩ : ∃ theme,
      (({} : LoadOptions).build "plain.css" sunkenRules).1 = .ok theme :=
    ⟨_, rfl⟩
  have hselector : "::Title Label" ∈ styledSelectors sunkenRules := by decide
  have hsegments : segments "::Title Label" ≠ [] := by decide
  obtain ⟨place, style, hdepth⟩ :=
    length_ancestors_iff_keepsDepth hbuild hselector hsegments
  exact ⟨theme, place, style, hbuild, hselector, hsegments, hdepth⟩

end ThemeSheet
