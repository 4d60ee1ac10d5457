import ThemeSheet.Proofs.Concatenation
import Mathlib.Data.List.DropRight

/-!
# Stylesheets that are cut off

A stylesheet is accepted only if each of its rules is closed by a brace of its
own.  So what is left of an accepted stylesheet that was cut off is either
refused, or holds the rules that were whole in front of the cut.
-/

namespace ThemeSheet

/-- A rule and where it stands in a text: from the first character of its
selectors to behind its closing brace. -/
structure Site where
  rule : Rule
  first : Nat
  stop : Nat
deriving DecidableEq, Repr

def Site.source (site : Site) (text : List Char) : List Char :=
  (text.take site.stop).drop site.first

/-- Whether the rule of a site is what the text there holds: its own tokens up
to its closing brace. -/
structure Site.IsIn (site : Site) (text : List Char) : Prop where
  stop_le : site.stop ≤ text.length
  closes : (site.source text).getLast? = some '\x7d'
  begins : dropGaps (lex (site.source text)) = lex (site.source text)
  alone : readRules (lex (site.source text)) = .ok [site.rule]

/-- The rules that are read from the last lexemes of a text of the given
length. -/
def sitesIn (length : Nat) (lexemes : List Lexeme) : List Site :=
  match _hrules : dropGaps lexemes with
  | [] => []
  | lexeme :: rest =>
      match _hrule : readRule (lexeme :: rest) with
      | .error _ => []
      | .ok (rule, left) =>
          ⟨rule, length - Span.width (lexeme :: rest), length - Span.width left⟩ ::
            sitesIn length left
termination_by lexemes.length
decreasing_by
  have hgaps := (dropGaps_isSuffix lexemes).length_le
  have hrule := length_lt_of_readRule _hrule
  rw [_hrules] at hgaps
  omega

def sites (css : String) : List Site := sitesIn css.length (lex css.toList)

section Sites

variable {length : Nat} {lexemes block left : List Lexeme} {rule : Rule} {site : Site}

theorem sitesIn_of_gaps (hgaps : dropGaps lexemes = []) : sitesIn length lexemes = [] := by
  rw [sitesIn]
  split
  next => rfl
  next hcons =>
    rw [hgaps] at hcons
    cases hcons

theorem sitesIn_of_rule (hgaps : dropGaps lexemes = block)
    (hrule : readRule block = .ok (rule, left)) :
    sitesIn length lexemes =
      ⟨rule, length - Span.width block, length - Span.width left⟩ ::
        sitesIn length left := by
  rw [sitesIn]
  split
  next hnil =>
    rw [← hgaps, hnil] at hrule
    cases hrule
  next first more hcons =>
    rw [← hgaps, hcons] at hrule
    split
    next refusal hrefused =>
      rw [hrule] at hrefused
      cases hrefused
    next found behind hfound =>
      rw [hrule, Except.ok.injEq, Prod.mk.injEq] at hfound
      obtain ⟨rfl, rfl⟩ := hfound
      rw [← hgaps, hcons]

theorem RuleRow.sitesIn_append {row : List Lexeme} {rules : List Rule}
    (hrow : RuleRow row rules) (length : Nat) (other : List Lexeme) :
    ∃ placed, sitesIn length (row ++ other) = placed ++ sitesIn length other ∧
      placed.map (·.rule) = rules ∧
      ∀ site ∈ placed, site.stop ≤ length - Span.width other := by
  induction hrow with
  | nil => exact ⟨[], rfl, rfl, by simp⟩
  | @cons gaps taken row closing rule rules hgaps hclosing hrule hrow ih =>
      obtain ⟨placed, hsites, hrules, hstops⟩ := ih
      simp only [List.append_assoc, List.cons_append]
      rw [sitesIn_of_rule (hgaps _) (hrule _), hsites]
      refine ⟨_ :: placed, rfl, by rw [List.map_cons, hrules], ?_⟩
      rw [List.forall_mem_cons]
      refine ⟨Nat.sub_le_sub_left ?_ length, hstops⟩
      exact Span.width_le_of_isSuffix (List.suffix_append _ _)

theorem source_of_bounds {front source : List Char} (hfirst : site.first = front.length)
    (hstop : site.stop = (front ++ source).length) (behind : List Char) :
    site.source (front ++ source ++ behind) = source := by
  rw [Site.source, hstop, hfirst, List.take_left, List.drop_left]

theorem isIn_of_alone {front source behind : List Char}
    (hfirst : site.first = front.length) (hstop : site.stop = (front ++ source).length)
    (hcloses : source.getLast? = some '\x7d') (hbegins : dropGaps (lex source) = lex source)
    (halone : readRules (lex source) = .ok [site.rule]) :
    site.IsIn (front ++ source ++ behind) := by
  have hsource := source_of_bounds hfirst hstop behind
  refine ⟨?_, ?_, ?_, ?_⟩
  · rw [hstop]
    exact (List.prefix_append _ _).length_le
  · rw [hsource, hcloses]
  · rw [hsource, hbegins]
  · rw [hsource, halone]

theorem Site.IsIn.first_lt_stop {text : List Char} (hsite : site.IsIn text) :
    site.first < site.stop := by
  by_contra hle
  have hclosed := hsite.closes
  rw [Site.source, List.drop_eq_nil_of_le] at hclosed
  · cases hclosed
  · exact (List.length_take_le _ _).trans (Nat.le_of_not_lt hle)

theorem dropGaps_of_append {gaps : List Lexeme}
    (hgaps : dropGaps (gaps ++ block) = block) : dropGaps block = block := by
  rw [← hgaps]
  exact List.dropWhile_idempotent _ _

section Closing

variable {taken : List Lexeme} {closing : Lexeme}

theorem sources_of_closing
    (hlex : lex (Span.sources (taken ++ closing :: left)) = taken ++ closing :: left)
    (hclosing : closing.value = .closing .curly) :
    Span.sources (taken ++ closing :: left) =
      Span.sources taken ++ ['\x7d'] ++ Span.sources left := by
  rw [Span.sources_append, sources_of_mark? hlex (mark?_of_closing hclosing),
    List.append_assoc, List.singleton_append]

/-- The text of a rule, up to and with its closing brace. -/
theorem text_of_closing
    (hlex : lex (Span.sources (taken ++ closing :: left)) = taken ++ closing :: left)
    (hclosing : closing.value = .closing .curly) (before : List Char)
    (gaps : List Lexeme) :
    before ++ Span.sources (gaps ++ (taken ++ closing :: left)) =
      before ++ Span.sources gaps ++ (Span.sources taken ++ ['\x7d']) ++
        Span.sources left := by
  rw [Span.sources_append, sources_of_closing hlex hclosing]
  simp only [List.append_assoc]

theorem width_of_closing
    (hlex : lex (Span.sources (taken ++ closing :: left)) = taken ++ closing :: left)
    (hclosing : closing.value = .closing .curly) :
    Span.width (taken ++ closing :: left) = Span.width taken + 1 + Span.width left := by
  rw [Span.width, sources_of_closing hlex hclosing, List.length_append, List.length_append]
  rfl

theorem isIn_of_rule {before : List Char} {gaps : List Lexeme}
    (hlex : lex (Span.sources (taken ++ closing :: left)) = taken ++ closing :: left)
    (hclosing : closing.value = .closing .curly)
    (hgaps : ∀ other, dropGaps (gaps ++ (taken ++ closing :: other)) =
      taken ++ closing :: other)
    (hrule : ∀ other, readRule (taken ++ closing :: other) = .ok (site.rule, other))
    (hfirst : site.first = before.length + Span.width gaps)
    (hstop : site.stop = before.length + Span.width gaps + (Span.width taken + 1)) :
    site.IsIn (before ++ Span.sources (gaps ++ (taken ++ closing :: left))) := by
  have hsource := lex_to_mark hlex (mark?_of_closing hclosing)
  have hbegins := dropGaps_of_append (hgaps [])
  rw [text_of_closing hlex hclosing]
  apply isIn_of_alone
  · rw [hfirst, List.length_append]
    rfl
  · rw [hstop, List.length_append, List.length_append, List.length_append]
    rfl
  · simp
  · rw [hsource, hbegins]
  · rw [hsource, readRules_of_rule hbegins (hrule []), readRules_of_gaps rfl]
    rfl

/-- The tokens of a site are those of its rule. -/
theorem lex_source_of_rule {before : List Char} {gaps : List Lexeme}
    (hlex : lex (Span.sources (taken ++ closing :: left)) = taken ++ closing :: left)
    (hclosing : closing.value = .closing .curly)
    (hfirst : site.first = before.length + Span.width gaps)
    (hstop : site.stop = before.length + Span.width gaps + (Span.width taken + 1)) :
    lex (site.source (before ++ Span.sources (gaps ++ (taken ++ closing :: left)))) =
      taken ++ [closing] := by
  rw [text_of_closing hlex hclosing, source_of_bounds,
    lex_to_mark hlex (mark?_of_closing hclosing)]
  · rw [hfirst, List.length_append]
    rfl
  · rw [hstop, List.length_append, List.length_append, List.length_append]
    rfl

end Closing

/-- A site is where its rule stands, no site is in front of the lexemes that its
rule was read from, and its tokens are some of these. -/
theorem isIn_of_mem_sitesIn {before : List Char}
    (hlex : lex (Span.sources lexemes) = lexemes)
    (hlength : length = before.length + Span.width lexemes)
    (hmem : site ∈ sitesIn length lexemes) :
    site.IsIn (before ++ Span.sources lexemes) ∧
      length - Span.width (dropGaps lexemes) ≤ site.first ∧
      lex (site.source (before ++ Span.sources lexemes)) <:+: lexemes := by
  -- each step moves a rule and the gaps in front of it to the end of `before`
  fun_induction sitesIn length lexemes generalizing before with
  | case1 | case2 => cases hmem
  | case3 lexemes lexeme rest hgaps rule left hrule ih =>
      obtain ⟨gaps, taken, closing, rfl, hclosing, hdrop, hother⟩ :=
        exists_rule_of_dropGaps hgaps hrule
      have hblock := lex_sources hlex
      have hwidth := width_of_closing hblock hclosing
      rw [Span.width_append] at hlength
      rw [hdrop] at hgaps ⊢
      rw [← hgaps] at hmem
      rcases List.mem_cons.mp hmem with rfl | hmem
      · have hfirst : length - Span.width (taken ++ closing :: left) =
            before.length + Span.width gaps := by
          omega
        have hstop : length - Span.width left =
            before.length + Span.width gaps + (Span.width taken + 1) := by
          omega
        refine ⟨isIn_of_rule hblock hclosing hdrop hother hfirst hstop, le_rfl, ?_⟩
        rw [lex_source_of_rule hblock hclosing hfirst hstop]
        exact ⟨gaps, left, by simp⟩
      · have hbefore : (before ++ Span.sources gaps ++
            (Span.sources taken ++ ['\x7d'])).length =
            before.length + Span.width gaps + (Span.width taken + 1) := by
          rw [List.length_append, List.length_append, List.length_append]
          rfl
        have hleft := Span.width_le_of_isSuffix (dropGaps_isSuffix left)
        have hlater := ih (lex_sources_tail (lex_sources hblock))
          (hlength.trans (by rw [hbefore]; omega)) hmem
        rw [text_of_closing hblock hclosing]
        refine ⟨hlater.1, by omega, hlater.2.2.trans ?_⟩
        exact ⟨gaps ++ (taken ++ [closing]), [], by simp⟩

end Sites

section Cuts

variable {css cut : String} {rules : List Rule}

theorem isIn_isInfix_of_mem_sites {site : Site} (hmem : site ∈ sites css) :
    site.IsIn css.toList ∧ lex (site.source css.toList) <:+: lex css.toList := by
  have hlex : lex (Span.sources (lex css.toList)) = lex css.toList := by
    rw [sources_lex]
  have hlength : css.length =
      ([] : List Char).length + Span.width (lex css.toList) := by
    rw [Span.width, sources_lex, List.length_nil, Nat.zero_add, String.length_toList]
  obtain ⟨hin, -, hlexemes⟩ := isIn_of_mem_sitesIn hlex hlength hmem
  rw [sources_lex] at hin hlexemes
  exact ⟨hin, hlexemes⟩

theorem isIn_of_mem_sites {site : Site} (hmem : site ∈ sites css) :
    site.IsIn css.toList :=
  (isIn_isInfix_of_mem_sites hmem).1

theorem map_rule_sites (hread : readStylesheet css = .ok rules) :
    (sites css).map (·.rule) = rules := by
  obtain ⟨row, gaps, hrow, hgaps, hlex, -⟩ :=
    exists_ruleRow_of_readRules_lex (readStylesheet_eq_ok_iff.mp hread)
  obtain ⟨placed, hsites, hrules, -⟩ := hrow.sitesIn_append css.length gaps
  rw [sites, hlex, hsites, sitesIn_of_gaps (List.dropWhile_eq_nil_iff.mpr hgaps),
    List.append_nil, hrules]

/-- A stylesheet that is one rule from its first character to its last. -/
theorem sites_of_readRule {rule : Rule}
    (hbegins : dropGaps (lex css.toList) = lex css.toList)
    (hrule : readRule (lex css.toList) = .ok (rule, [])) :
    readStylesheet css = .ok [rule] ∧ sites css = [⟨rule, 0, css.length⟩] := by
  have hwidth : Span.width (lex css.toList) = css.length := by
    rw [Span.width, sources_lex, String.length_toList]
  constructor
  · rw [readStylesheet_eq_ok_iff, readRules_of_rule hbegins hrule, readRules_of_gaps rfl]
    rfl
  · rw [sites, sitesIn_of_rule hbegins hrule, sitesIn_of_gaps rfl, hwidth, Nat.sub_self,
      Span.width_nil, Nat.sub_zero]

/-- Where the rules of a text stand, when what is in front of a cut is accepted. -/
theorem sites_of_cut (hcut : cut.toList <+: css.toList)
    (hread : readStylesheet cut = .ok rules) :
    ∃ placed later, sites css = placed ++ later ∧ placed.map (·.rule) = rules ∧
      (∀ site ∈ placed, site.stop ≤ cut.length) ∧
      ∀ site ∈ later, cut.length ≤ site.first ∧ site.first < site.stop := by
  obtain ⟨more, hmore⟩ := hcut
  obtain ⟨row, gaps, hrow, hgaps, hlex, hlexMore⟩ :=
    exists_ruleRow_of_readRules_lex (readStylesheet_eq_ok_iff.mp hread)
  have hwidth : Span.width (lex (Span.sources gaps ++ more)) =
      Span.width gaps + more.length := by
    rw [Span.width, sources_lex, List.length_append, Span.width]
  have hcutLength : cut.length = Span.width row + Span.width gaps := by
    rw [← String.length_toList, ← Span.width_append, ← hlex, Span.width, sources_lex]
  have hlength : css.length = cut.length + more.length := by
    rw [← String.length_toList, ← hmore, List.length_append, String.length_toList]
  obtain ⟨placed, hsites, hrules, hstops⟩ :=
    hrow.sitesIn_append css.length (lex (Span.sources gaps ++ more))
  refine ⟨placed, sitesIn css.length (lex (Span.sources gaps ++ more)), ?_, hrules, ?_, ?_⟩
  · rw [sites, ← hmore, hlexMore, hsites]
  · intro site hsite
    have hstop := hstops site hsite
    omega
  · intro site hsite
    have hbehind : lex (Span.sources (lex (Span.sources gaps ++ more))) =
        lex (Span.sources gaps ++ more) := by
      rw [sources_lex]
    have hgapsOnly := (sources_dropGaps_lex_gaps (lex_sources hlex) hgaps more).length_le
    have hwhole : css.length = (Span.sources row).length +
        Span.width (lex (Span.sources gaps ++ more)) := by
      change css.length = Span.width row + _
      omega
    obtain ⟨hin, hfirst, -⟩ := isIn_of_mem_sitesIn hbehind hwhole hsite
    refine ⟨?_, hin.first_lt_stop⟩
    rw [Span.width] at hfirst
    omega

/-- A cut inside of a rule is noticed, and a cut elsewhere loses the rules behind
it alone. -/
theorem readStylesheet_of_isPrefix (hread : readStylesheet css = .ok rules)
    (hcut : cut.toList <+: css.toList) :
    (sites css).map (·.rule) = rules ∧
    (∀ site ∈ sites css, site.IsIn css.toList) ∧
    (∀ site ∈ sites css, site.first < cut.length → cut.length < site.stop →
      ∃ fault, readStylesheet cut = .error fault) ∧
    (∀ kept, readStylesheet cut = .ok kept →
      kept = ((sites css).filter (fun site => site.stop ≤ cut.length)).map (·.rule)) := by
  refine ⟨map_rule_sites hread, fun site => isIn_of_mem_sites, ?_, ?_⟩
  · intro site hsite hfirst hstop
    cases hresult : readStylesheet cut with
    | error fault => exact ⟨fault, rfl⟩
    | ok kept =>
        exfalso
        obtain ⟨placed, later, hsites, -, hplaced, hlater⟩ := sites_of_cut hcut hresult
        rw [hsites] at hsite
        rcases List.mem_append.mp hsite with hbefore | hbehind
        · exact absurd (hplaced site hbefore) (Nat.not_le_of_lt hstop)
        · exact absurd (hlater site hbehind).1 (Nat.not_le_of_lt hfirst)
  · intro kept hkept
    obtain ⟨placed, later, hsites, hrules, hplaced, hlater⟩ := sites_of_cut hcut hkept
    have hwhole : placed.filter (fun site => site.stop ≤ cut.length) = placed := by
      apply List.filter_eq_self.mpr
      intro site hsite
      exact decide_eq_true (hplaced site hsite)
    have hlost : later.filter (fun site => site.stop ≤ cut.length) = [] := by
      apply List.filter_eq_nil_iff.mpr
      intro site hsite
      obtain ⟨hfirst, hstop⟩ := hlater site hsite
      simp only [decide_eq_true_eq, not_le]
      omega
    rw [hsites, List.filter_append, hwhole, hlost, List.append_nil, hrules]

end Cuts

theorem sites_commentedSheet :
    sites commentedSheet = [⟨⟨["A"], [⟨"b", "c"⟩]⟩, 0, 6⟩] := by
  have hgaps : dropGaps (plainRule ['A'] ['b'] ['c'] ++
      [⟨.comment, ['/', '*', '*', '/']⟩]) =
      plainRule ['A'] ['b'] ['c'] ++ [⟨.comment, ['/', '*', '*', '/']⟩] :=
    rfl
  have hrule : readRule (plainRule ['A'] ['b'] ['c'] ++
      [⟨.comment, ['/', '*', '*', '/']⟩]) =
      .ok (⟨["A"], [⟨"b", "c"⟩]⟩, [⟨.comment, ['/', '*', '*', '/']⟩]) :=
    readRule_plainRule_append (by decide) (by decide)
  rw [sites, lex_commentedSheet, sitesIn_of_rule hgaps hrule, sitesIn_of_gaps rfl]
  rfl

theorem readStylesheet_of_isPrefix_commentedSheet :
    (∃ fault, readStylesheet "A\x7bb" = .error fault) ∧
      ∀ kept, readStylesheet "A\x7bb:c\x7d/*" = .ok kept → kept = commentedRules := by
  have hinside : "A\x7bb".toList <+: commentedSheet.toList := by decide
  have hbehind : "A\x7bb:c\x7d/*".toList <+: commentedSheet.toList := by decide
  obtain ⟨-, -, hrefused, -⟩ :=
    readStylesheet_of_isPrefix readStylesheet_commentedSheet hinside
  obtain ⟨-, -, -, hkept⟩ :=
    readStylesheet_of_isPrefix readStylesheet_commentedSheet hbehind
  rw [sites_commentedSheet] at hrefused hkept
  constructor
  · exact hrefused _ (List.mem_singleton_self _) (by decide) (by decide)
  · intro kept hread
    rw [hkept kept hread]
    rfl

end ThemeSheet
