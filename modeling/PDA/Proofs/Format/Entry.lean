import PDA.Format.Entry
import PDA.Proofs.Format.RuleLine

/-!
# Which lines are declarations and which are rules

A line is a declaration exactly if it begins with a keyword and a colon, and a rule is read from a
line exactly if the line is not a declaration and its words can stand in a rule. Both kinds of lines
are read as they were written (`declaration?_head_append`, `RuleLine.WellFormed.ofText_text`).
-/

namespace PDA.Format

open Text

/-! ## Declarations -/

namespace Keyword

/-- What a declaration begins with. -/
def head (k : Keyword) : List Char := k.name.toList ++ [':']

theorem colon_not_mem_name (k : Keyword) : ':' ∉ k.name.toList := by cases k <;> decide

/-- There is no white space in a keyword or its colon. -/
theorem isSpace_of_mem_head (k : Keyword) : ∀ c ∈ k.head, isSpace c = false := by
  have hall : k.head.all (!isSpace ·) = true := by cases k <;> decide
  simpa using hall

theorem newline_not_mem_head (k : Keyword) : '\n' ∉ k.head := by cases k <;> decide

theorem noLeadingSpace_head (k : Keyword) : NoLeadingSpace k.head := by cases k <;> decide

end Keyword

/-- The text begins with a keyword and a colon. -/
def StartsDeclaration (cs : List Char) : Prop := ∃ k : Keyword, k.head <+: cs

instance (cs : List Char) : Decidable (StartsDeclaration cs) :=
  decidable_of_iff (∃ k ∈ Keyword.all, k.head <+: cs) (by simp [StartsDeclaration, Keyword.mem_all])

/-- A declaration is a keyword, a colon and a value up to the next colon. -/
theorem declaration?_eq_some_iff {cs value : List Char} {k : Keyword} :
    declaration? cs = some (k, value) ↔
      ∃ rest, cs.splitOn ':' = k.name.toList :: value :: rest := by
  unfold declaration?
  split
  · rename_i name value' rest hsplit
    simp only [hsplit, Option.map_eq_some_iff, Keyword.ofName?_eq_some_iff, Prod.mk.injEq,
      List.cons.injEq]
    constructor
    · rintro ⟨k', hname, rfl, rfl⟩
      exact ⟨rest, by rw [hname, String.toList_ofList], rfl, rfl⟩
    · rintro ⟨rest', hname, rfl, -⟩
      exact ⟨k, by rw [hname, String.ofList_toList], rfl, rfl⟩
  · rename_i hsplit
    simp only [reduceCtorEq, false_iff]
    rintro ⟨rest, hrest⟩
    exact hsplit _ _ _ hrest

/-- A text holds no declaration exactly if no keyword and colon begin it. -/
theorem declaration?_eq_none_iff {cs : List Char} :
    declaration? cs = none ↔ ¬ StartsDeclaration cs := by
  rw [← not_iff_not, not_not, ← ne_eq, Option.ne_none_iff_exists']
  constructor
  · rintro ⟨⟨k, value⟩, h⟩
    obtain ⟨rest, hsplit⟩ := declaration?_eq_some_iff.1 h
    refine ⟨k, ?_⟩
    have hjoin : [':'].intercalate (cs.splitOn ':') = cs := List.intercalate_splitOn ':'
    rw [← hjoin, hsplit, List.intercalate_cons_cons]
    exact List.prefix_append _ _
  · rintro ⟨k, cs', rfl⟩
    obtain ⟨value, rest, hsplit⟩ := List.exists_cons_of_ne_nil (List.splitOn_ne_nil ':' cs')
    refine ⟨(k, value), declaration?_eq_some_iff.2 ⟨rest, ?_⟩⟩
    rw [Keyword.head, List.append_assoc, List.singleton_append,
      List.splitOn_append_cons_self_of_not_mem k.colon_not_mem_name, hsplit]

/-- A value without a colon is read as it was written. -/
theorem declaration?_head_append {k : Keyword} {value : List Char} (h : ':' ∉ value) :
    declaration? (k.head ++ value) = some (k, value) := by
  refine declaration?_eq_some_iff.2 ⟨[], ?_⟩
  rw [Keyword.head, List.append_assoc, List.singleton_append,
    List.splitOn_append_cons_self_of_not_mem k.colon_not_mem_name, List.splitOn_eq_singleton h]

/-- What stands after a second colon is not read. -/
theorem declaration?_head_append_colon {k : Keyword} {value : List Char} (h : ':' ∉ value)
    (rest : List Char) : declaration? (k.head ++ (value ++ ':' :: rest)) = some (k, value) := by
  refine declaration?_eq_some_iff.2 ⟨rest.splitOn ':', ?_⟩
  rw [Keyword.head, List.append_assoc, List.singleton_append,
    List.splitOn_append_cons_self_of_not_mem k.colon_not_mem_name,
    List.splitOn_append_cons_self_of_not_mem h]

theorem colon_not_mem_of_declaration? {cs value : List Char} {k : Keyword}
    (h : declaration? cs = some (k, value)) : ':' ∉ value := by
  obtain ⟨rest, hsplit⟩ := declaration?_eq_some_iff.1 h
  have hmem : value ∈ cs.splitOn ':' := by simp [hsplit]
  exact not_mem_of_mem_splitOn hmem

theorem infix_of_declaration? {cs value : List Char} {k : Keyword}
    (h : declaration? cs = some (k, value)) : value <:+: cs := by
  obtain ⟨rest, hsplit⟩ := declaration?_eq_some_iff.1 h
  have hmem : value ∈ cs.splitOn ':' := by simp [hsplit]
  exact infix_of_mem_splitOn hmem

/-- What follows white space has no say in whether a text begins with a keyword and a colon. -/
theorem startsDeclaration_append_space {c : Char} (hc : isSpace c = true) {xs ys : List Char}
    (h : StartsDeclaration (xs ++ c :: ys)) : StartsDeclaration xs := by
  obtain ⟨k, hk⟩ := h
  refine ⟨k, ?_⟩
  rcases List.prefix_or_prefix_of_prefix hk (List.prefix_append xs (c :: ys)) with hpre | hpre
  · exact hpre
  · obtain ⟨cs, hcs⟩ := hpre
    cases cs with
    | nil => rw [← hcs, List.append_nil]
    | cons d cs =>
      -- the white space would be part of the keyword
      rw [← hcs, List.prefix_append_right_inj, List.cons_prefix_cons] at hk
      obtain ⟨rfl, -⟩ := hk
      have hvisible : isSpace d = false := k.isSpace_of_mem_head d (by simp [← hcs])
      exact absurd hc (by simp [hvisible])

/-- The value of a declaration ends at the next colon, or with the line. -/
def declaredValue (k : Keyword) (cs : List Char) : List Char :=
  (cs.drop k.head.length).takeWhile (· ≠ ':')

/-- The keyword and its colon begin the text, and the value is what stands behind them. -/
theorem declaration?_eq_some_iff_head {cs value : List Char} {k : Keyword} :
    declaration? cs = some (k, value) ↔ k.head <+: cs ∧ declaredValue k cs = value := by
  have hsplit : ∀ cs', (k.head ++ cs').splitOn ':' = k.name.toList :: cs'.splitOn ':' := by
    intro cs'
    rw [Keyword.head, List.append_assoc, List.singleton_append,
      List.splitOn_append_cons_self_of_not_mem k.colon_not_mem_name]
  rw [declaration?_eq_some_iff]
  constructor
  · rintro ⟨rest, h⟩
    obtain ⟨cs', rfl⟩ : k.head <+: cs := by
      have hjoin : [':'].intercalate (cs.splitOn ':') = cs := List.intercalate_splitOn ':'
      rw [← hjoin, h, List.intercalate_cons_cons]
      exact List.prefix_append _ _
    have hhead := head?_splitOn ':' cs'
    rw [hsplit, List.cons.injEq] at h
    rw [h.2, List.head?_cons, Option.some.injEq] at hhead
    refine ⟨List.prefix_append _ _, ?_⟩
    rw [declaredValue, List.drop_left, hhead]
  · rintro ⟨⟨cs', rfl⟩, rfl⟩
    obtain ⟨value, rest, hvalue⟩ := List.exists_cons_of_ne_nil (List.splitOn_ne_nil ':' cs')
    have hhead := head?_splitOn ':' cs'
    rw [hvalue, List.head?_cons, Option.some.injEq] at hhead
    refine ⟨rest, ?_⟩
    rw [hsplit, hvalue, declaredValue, List.drop_left, hhead]

/-- A text begins with no more than one keyword and a colon. -/
theorem Keyword.eq_of_head_isPrefix {j k : Keyword} {cs : List Char} (hj : j.head <+: cs)
    (hk : k.head <+: cs) : j = k := by
  have hdeclaration := declaration?_eq_some_iff_head.2 ⟨hj, rfl⟩
  rw [declaration?_eq_some_iff_head.2 ⟨hk, rfl⟩] at hdeclaration
  exact (Prod.mk.inj (Option.some.inj hdeclaration)).1.symm

/-! ## Rules -/

/-- The line is meant as a rule: it is no declaration, and it has an arrow. -/
def IsRuleText (cs : List Char) : Prop := ¬ StartsDeclaration cs ∧ HasArrow cs

instance (cs : List Char) : Decidable (IsRuleText cs) := inferInstanceAs (Decidable (_ ∧ _))

/-- There is exactly one arrow, with three words before it and one after it. -/
def HoldsRule (cs : List Char) : Prop :=
  ∃ left right, cs = left ++ arrow ++ right ∧ ¬ HasArrow left ∧ ¬ HasArrow right ∧
    3 ≤ (words left).length ∧ 1 ≤ (words right).length

/-! ## Entries -/

namespace Entry

variable {cs : List Char} {rl : RuleLine}

theorem ofText_eq_declaration_iff {k : Keyword} {value : List Char} :
    ofText cs = .declaration k value ↔ declaration? cs = some (k, value) := by
  unfold ofText
  split
  · rename_i hd
    simp [hd]
  · rename_i hd
    rw [hd]
    split
    · split <;> simp
    · simp

/-- A text is read as a rule exactly if it is no declaration, has one arrow, and the pieces hold the words of
a rule. -/
theorem ofText_eq_rule_iff :
    ofText cs = .rule rl ↔ ¬ StartsDeclaration cs ∧
      ∃ left right, splitArrows cs = [left, right] ∧ RuleLine.ofPieces left right [] = .ok rl := by
  rw [← declaration?_eq_none_iff]
  unfold ofText
  split
  · rename_i hd
    simp [hd]
  · rename_i hd
    rw [hd]
    split
    · rename_i left right more hsplit
      simp only [hsplit, true_and, List.cons.injEq]
      constructor
      · intro h
        have hok : RuleLine.ofPieces left right more = .ok rl := by
          split at h
          · rename_i rl' hrl
            rw [hrl, (Entry.rule.inj h)]
          · simp at h
        obtain ⟨rfl, -⟩ := RuleLine.ofPieces_eq_ok_iff.1 hok
        exact ⟨left, right, ⟨rfl, rfl, rfl⟩, hok⟩
      · rintro ⟨left', right', ⟨rfl, rfl, rfl⟩, hok⟩
        rw [hok]
    · rename_i hsplit
      simp only [reduceCtorEq, true_and, false_iff]
      rintro ⟨left, right, h, -⟩
      exact hsplit left right [] h

/-- A line with an arrow that is no declaration is read piece by piece. -/
theorem ofText_append_arrow {left right piece : List Char} {more : List (List Char)}
    (hd : ¬ StartsDeclaration (left ++ arrow ++ right)) (hleft : ¬ HasArrow left)
    (hright : splitArrows right = piece :: more) :
    ofText (left ++ arrow ++ right) =
      match RuleLine.ofPieces left piece more with
      | .ok words => .rule words
      | .error (defect, span) => .malformed defect span := by
  rw [ofText, declaration?_eq_none_iff.2 hd]
  cases hpieces : RuleLine.ofPieces left piece more <;>
    simp only [splitArrows_append_arrow hleft, hright, hpieces]

/-- A text is read as a rule exactly if it is no declaration, has one arrow, and its words are those of the
rule, with others after them at most. -/
theorem ofText_eq_rule_iff_words :
    ofText cs = .rule rl ↔ ¬ StartsDeclaration cs ∧ ∃ left right,
      cs = left ++ arrow ++ right ∧ ¬ HasArrow left ∧ ¬ HasArrow right ∧
      (∃ ws, words left = rl.source.toList :: rl.read.toList :: rl.pop.toList :: ws) ∧
      ∃ ws, words right = rl.target.toList :: ws ∧ rl.push = ws.head?.map String.ofList := by
  rw [ofText_eq_rule_iff]
  simp only [splitArrows_eq_pair_iff, RuleLine.ofPieces_eq_ok_iff, true_and, and_assoc]

/-- A text is read as some rule exactly if it is no declaration and holds one. -/
theorem exists_rule_iff : (∃ rl, ofText cs = .rule rl) ↔ ¬ StartsDeclaration cs ∧ HoldsRule cs := by
  constructor
  · rintro ⟨rl, h⟩
    obtain ⟨hd, left, right, hcs, hleft, hright, ⟨ws, hws⟩, ws', hws', -⟩ :=
      ofText_eq_rule_iff_words.1 h
    exact ⟨hd, left, right, hcs, hleft, hright, by simp [hws], by simp [hws']⟩
  · rintro ⟨hd, left, right, rfl, hleft, hright, hthree, hone⟩
    rw [ofText_append_arrow hd hleft (splitArrows_of_not_hasArrow hright)]
    have hne : words right ≠ [] := List.length_pos_iff.1 hone
    rcases RuleLine.ofPieces_cases left right [] with h | h | h | h | h
    · exact absurd rfl h.1
    · simp [h.2.1] at hthree
    · exact absurd h.2.2.1 (not_lt.2 hthree)
    · exact absurd h.2.2.1 hne
    · obtain ⟨-, -, -, rl, hrl⟩ := h
      exact ⟨rl, by rw [hrl]⟩

theorem exists_declaration_iff :
    (∃ k value, ofText cs = .declaration k value) ↔ StartsDeclaration cs := by
  rw [← not_iff_not, ← declaration?_eq_none_iff, Option.eq_none_iff_forall_ne_some]
  simp only [ofText_eq_declaration_iff, not_exists, Prod.forall, ne_eq]

/-- A text is not recognized exactly if it is no declaration and has no arrow. -/
theorem ofText_eq_unrecognized_iff :
    ofText cs = .unrecognized ↔ ¬ StartsDeclaration cs ∧ ¬ HasArrow cs := by
  constructor
  · intro h
    have hd : ¬ StartsDeclaration cs := by
      rw [← exists_declaration_iff, h]
      simp
    refine ⟨hd, fun harrow => ?_⟩
    obtain ⟨left, right, rfl, hleft⟩ := harrow.exists_first
    obtain ⟨piece, more, hright⟩ := List.exists_cons_of_ne_nil (splitArrows_ne_nil right)
    rw [ofText_append_arrow hd hleft hright] at h
    split at h <;> contradiction
  · rintro ⟨hd, harrow⟩
    rw [ofText, declaration?_eq_none_iff.2 hd]
    simp only [splitArrows_of_not_hasArrow harrow]

/-- A line is read as malformed exactly if it is meant as a rule and holds none. -/
theorem exists_malformed_iff :
    (∃ defect span, ofText cs = .malformed defect span) ↔ IsRuleText cs ∧ ¬ HoldsRule cs := by
  constructor
  · rintro ⟨defect, span, h⟩
    have hd : ¬ StartsDeclaration cs := by
      rw [← exists_declaration_iff, h]
      simp
    have harrow : HasArrow cs := by
      by_contra harrow
      have hunrecognized := ofText_eq_unrecognized_iff.2 ⟨hd, harrow⟩
      simp [h] at hunrecognized
    refine ⟨⟨hd, harrow⟩, fun hholds => ?_⟩
    obtain ⟨rl, hrl⟩ := exists_rule_iff.2 ⟨hd, hholds⟩
    simp [h] at hrl
  · rintro ⟨⟨hd, harrow⟩, hholds⟩
    cases hentry : ofText cs with
    | declaration k value => exact absurd (exists_declaration_iff.1 ⟨k, value, hentry⟩) hd
    | rule rl => exact absurd (exists_rule_iff.1 ⟨rl, hentry⟩).2 hholds
    | malformed defect span => exact ⟨defect, span, rfl⟩
    | unrecognized => exact absurd harrow (ofText_eq_unrecognized_iff.1 hentry).2

/-- Why a line with an arrow holds no rule, and what in the line is shown for it. -/
theorem malformed_cases {defect : Defect} {span : Span} (h : ofText cs = .malformed defect span) :
    ¬ StartsDeclaration cs ∧ ∃ left right, cs = left ++ arrow ++ right ∧ ¬ HasArrow left ∧
      ((∃ mid post, right = mid ++ arrow ++ post ∧ ¬ HasArrow mid ∧ defect = .extraArrow ∧
          span = ⟨byteLength left + byteLength arrow + byteLength mid,
            byteLength left + byteLength arrow + byteLength mid + byteLength arrow⟩) ∨
        (¬ HasArrow right ∧ words left = [] ∧ defect = .tooFewWords 0 ∧
          span = ⟨byteLength left, byteLength left + byteLength arrow⟩) ∨
        (¬ HasArrow right ∧ words left ≠ [] ∧ (words left).length < 3 ∧
          defect = .tooFewWords (words left).length ∧
          span = ⟨0, byteLength left + byteLength arrow⟩) ∨
        (¬ HasArrow right ∧ 3 ≤ (words left).length ∧ words right = [] ∧ defect = .noTarget ∧
          span = ⟨byteLength left, byteLength left + byteLength arrow⟩)) := by
  obtain ⟨⟨hd, harrow⟩, -⟩ := exists_malformed_iff.1 ⟨defect, span, h⟩
  obtain ⟨left, right, rfl, hleft⟩ := harrow.exists_first
  refine ⟨hd, left, right, rfl, hleft, ?_⟩
  by_cases hright : HasArrow right
  · obtain ⟨mid, post, rfl, hmid⟩ := hright.exists_first
    rw [ofText_append_arrow hd hleft (splitArrows_append_arrow hmid post)] at h
    rcases RuleLine.ofPieces_cases left mid (splitArrows post) with hp | hp | hp | hp | hp
    · rw [hp.2] at h
      obtain ⟨rfl, rfl⟩ := Entry.malformed.inj h
      exact .inl ⟨mid, post, rfl, hmid, rfl, rfl⟩
    all_goals exact absurd hp.1 (splitArrows_ne_nil post)
  · rw [ofText_append_arrow hd hleft (splitArrows_of_not_hasArrow hright)] at h
    rcases RuleLine.ofPieces_cases left right [] with hp | hp | hp | hp | hp
    · exact absurd rfl hp.1
    · rw [hp.2.2] at h
      obtain ⟨rfl, rfl⟩ := Entry.malformed.inj h
      exact .inr (.inl ⟨hright, hp.2.1, rfl, rfl⟩)
    · rw [hp.2.2.2] at h
      obtain ⟨rfl, rfl⟩ := Entry.malformed.inj h
      exact .inr (.inr (.inl ⟨hright, hp.2.1, hp.2.2.1, rfl, rfl⟩))
    · rw [hp.2.2.2] at h
      obtain ⟨rfl, rfl⟩ := Entry.malformed.inj h
      exact .inr (.inr (.inr ⟨hright, hp.2.1, hp.2.2.1, rfl, rfl⟩))
    · obtain ⟨-, -, -, rl, hrl⟩ := hp
      simp [hrl] at h

/-- The words of a rule can stand in a rule, and the first of them does not make the line a
declaration. -/
theorem wellFormed_of_ofText (h : ofText cs = .rule rl) (hcs : NoLeadingSpace cs) :
    rl.WellFormed ∧ ¬ StartsDeclaration rl.source.toList := by
  obtain ⟨hd, left, right, hsplit, hok⟩ := ofText_eq_rule_iff.1 h
  obtain ⟨first, rest, hsplit', hjoin, hpieces⟩ := splitArrows_pieces cs
  rw [hsplit] at hsplit'
  rw [← hsplit'] at hjoin hpieces
  refine ⟨RuleLine.wellFormed_of_ofPieces hok (hpieces left (by simp)) (hpieces right (by simp)),
    ?_⟩
  obtain ⟨-, ⟨ws, hws⟩, -⟩ := RuleLine.ofPieces_eq_ok_iff.1 hok
  have hleft : left <+: cs := by
    rw [← hjoin, List.intercalate_cons_cons, List.append_assoc]
    exact List.prefix_append _ _
  have hsource : rl.source.toList <+: left :=
    prefix_of_words_eq_cons hws (hcs.of_isPrefix hleft)
  rintro ⟨k, hk⟩
  exact hd ⟨k, hk.trans (hsource.trans hleft)⟩

end Entry

/-- A rule is read as it was written. -/
theorem RuleLine.WellFormed.ofText_text {rl : RuleLine} (h : rl.WellFormed)
    (hd : ¬ StartsDeclaration rl.source.toList) : Entry.ofText rl.text = .rule rl := by
  refine Entry.ofText_eq_rule_iff.2 ⟨?_, rl.left, rl.right, h.splitArrows_text,
    h.ofPieces_left_right⟩
  intro htext
  rw [RuleLine.text, RuleLine.left, List.append_assoc, List.append_assoc, List.cons_append] at htext
  exact hd (startsDeclaration_append_space (by decide) htext)

end PDA.Format
