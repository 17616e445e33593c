import Mathlib.Data.List.Nodup
import PDA.Proofs.Format.Notices

/-!
# Texts one after the other

Reading a text goes on where the text before it left off. What was read of the second text alone is found
again in the draft of both, with numbers and places moved (`Draft.ofText_append_isJoin`): its rules and
faults come after those of the first text, and what it declares replaces what the first text declares. Only
the notices know of each other, for a keyword that the first text declares is declared again by the second
one.
-/

namespace PDA.Format

open Text

/-- The fault with so many lines and bytes before its text. -/
def Fault.shift (lines bytes : Nat) : Fault → Fault
  | .malformedRule line text defect span =>
    .malformedRule (lines + line) text defect (span.shift bytes)
  | .missingStart => .missingStart

/-- The notice with so many lines and bytes before its text. -/
def Notice.shift (lines bytes : Nat) : Notice → Notice
  | .unrecognized line span ks => .unrecognized (lines + line) (span.shift bytes) ks
  | .redeclared line span k => .redeclared (lines + line) (span.shift bytes) k

/-- The first line of a text that declares the keyword. -/
def firstDeclaration? (k : Keyword) (cs : List Char) : Option Line :=
  (contentLines cs).find? (k.head <+: ·.text)

/-- Whether some line of a text declares the keyword. -/
def declares (k : Keyword) (cs : List Char) : Bool := (firstDeclaration? k cs).isSome

/-- The notices about keywords that the first text declares, at the place in the second text where they are
declared first. -/
def redeclarations (cs ds : List Char) : List Notice :=
  (Keyword.all.filter fun k => k ≠ .transitions ∧ declares k cs).filterMap fun k =>
    (firstDeclaration? k ds).map fun line => .redeclared line.number line.span k

/-- The draft is what is read of a text `cs` and a text `ds` after it. -/
structure Draft.IsJoin (cs ds : List Char) (draft : Draft) : Prop where
  states : draft.states =
    if declares .states ds then (ofText ds).states else (ofText cs).states
  inputAlphabet : draft.inputAlphabet =
    if declares .inputSymbols ds then (ofText ds).inputAlphabet else (ofText cs).inputAlphabet
  stackAlphabet : draft.stackAlphabet =
    if declares .stackSymbols ds then (ofText ds).stackAlphabet else (ofText cs).stackAlphabet
  start : draft.start =
    if declares .startState ds then (ofText ds).start else (ofText cs).start
  accept : draft.accept =
    if declares .acceptStates ds then (ofText ds).accept else (ofText cs).accept
  rules : ∀ epsilon, draft.rules.toList.map (RuleLine.toRule epsilon) =
    (ofText cs).rules.toList.map (RuleLine.toRule epsilon) ++
      (ofText ds).rules.toList.map (RuleLine.toRule epsilon)
  faults : draft.faults.toList = (ofText cs).faults.toList ++
    (ofText ds).faults.toList.map (Fault.shift (cs.count '\n') (byteLength cs))
  notices : ∃ later, draft.notices.toList = (ofText cs).notices.toList ++ later ∧
    later.Pairwise (fun a b => a.line < b.line) ∧
    later.Perm (((ofText ds).notices.toList ++ redeclarations cs ds).map
      (Notice.shift (cs.count '\n') (byteLength cs)))

section Join

variable {cs ds : List Char}

/-! ## Lines -/

theorem contentLines_nil : contentLines [] = [] := rfl

/-- Past a line break the lines are those of the second text, moved by the lines and the bytes before it. -/
theorem contentLines_append_newline (cs ds : List Char) :
    contentLines (cs ++ '\n' :: ds) = contentLines cs ++ (contentLines ds).map
      (Line.shift ((cs ++ ['\n']).count '\n') (byteLength (cs ++ ['\n']))) := by
  have htrim : ∀ lines bytes, (Line.ofText ds).map (Line.trim ∘ Line.shift lines bytes) =
      ((Line.ofText ds).map Line.trim).map (Line.shift lines bytes) := by
    intro lines bytes
    rw [List.map_map]
    exact List.map_congr_left fun line _ => Line.trim_shift lines bytes line
  rw [contentLines, ofText_append_newline, List.map_append, List.filter_append, List.map_map, htrim]
  exact congrArg (contentLines cs ++ ·) List.filter_map

/-- After a line feed a line begins, so the lines of both texts are those of each of them. -/
theorem contentLines_append (h : cs = [] ∨ cs.getLast? = some '\n') (ds : List Char) :
    contentLines (cs ++ ds) = contentLines cs ++
      (contentLines ds).map (Line.shift (cs.count '\n') (byteLength cs)) := by
  rcases h with rfl | hlast
  · have hid : (contentLines ds).map (Line.shift 0 0) = contentLines ds :=
      List.map_id'' Line.shift_zero _
    rw [List.nil_append, contentLines_nil, List.nil_append, List.count_nil, byteLength_nil, hid]
  · obtain ⟨init, rfl⟩ := List.getLast?_eq_some_iff.1 hlast
    have hinit : contentLines (init ++ ['\n']) = contentLines init := by
      rw [contentLines_append_newline, contentLines_nil, List.map_nil, List.append_nil]
    rw [hinit, List.append_assoc, List.singleton_append, contentLines_append_newline]

/-- Reading two texts in one is to read the second with what the first one left. -/
theorem Draft.ofText_append (h : cs = [] ∨ cs.getLast? = some '\n') (ds : List Char) :
    ofText (cs ++ ds) = ((contentLines ds).map (Line.shift (cs.count '\n') (byteLength cs))).foldl
      add (ofText cs) := by
  rw [ofText, contentLines_append h, List.foldl_append, ofText]

/-! ## Declarations -/

theorem entries_append (h : cs = [] ∨ cs.getLast? = some '\n') (ds : List Char) :
    entries (cs ++ ds) = entries cs ++ entries ds := by
  rw [entries, contentLines_append h, List.map_append, List.map_map]
  rfl

/-- The first declaration of a keyword is the one with no other of the same keyword above it. -/
theorem firstDeclaration?_eq_some_iff {k : Keyword} {line : Line} :
    firstDeclaration? k cs = some line ↔ line ∈ contentLines cs ∧ k.head <+: line.text ∧
      ∀ earlier ∈ contentLines cs, earlier.number < line.number → ¬ k.head <+: earlier.text := by
  rw [firstDeclaration?, List.find?_eq_some_iff_append, decide_eq_true_iff]
  constructor
  · rintro ⟨hhead, pre, post, hls, hpre⟩
    refine ⟨by simp [hls], hhead, fun earlier hmem hlt => ?_⟩
    have hearlier := (mem_before_iff hls).2 ⟨hmem, hlt⟩
    simpa using hpre earlier hearlier
  · rintro ⟨hline, hhead, hfirst⟩
    obtain ⟨pre, post, hls⟩ := List.append_of_mem hline
    refine ⟨hhead, pre, post, hls, fun earlier hearlier => ?_⟩
    obtain ⟨hmem, hlt⟩ := (mem_before_iff hls).1 hearlier
    simpa using hfirst earlier hmem hlt

theorem declares_iff {k : Keyword} :
    declares k cs = true ↔ ∃ line ∈ contentLines cs, k.head <+: line.text := by
  rw [declares, firstDeclaration?, List.find?_isSome]
  simp only [decide_eq_true_iff]

/-- A keyword counts as declared once a line that begins with it has been read, the one of the rules aside. -/
theorem Draft.isDeclared_ofText {k : Keyword} (hk : k ≠ .transitions) :
    (ofText cs).isDeclared k = declares k cs := by
  rw [Bool.eq_iff_iff, ofText, isDeclared_foldl_add hk, declares_iff, isDeclared_empty]
  simp

/-- There are values for a keyword exactly if a line declares it. -/
theorem declared_eq_nil_iff {k : Keyword} :
    declared k (entries cs) = [] ↔ declares k cs = false := by
  rw [← Bool.not_eq_true, declares_iff, declared, entries, List.filterMap_map,
    List.filterMap_eq_nil_iff]
  push Not
  refine forall₂_congr fun line _ => ?_
  rw [Function.comp_apply, ← Entry.isSome_value?_ofText_iff, Option.not_isSome_iff_eq_none]

/-- The last declaration of both texts is that of the second one, if it has one. -/
theorem Draft.Field.get_ofText_append {α : Type} (f : Field α)
    (h : cs = [] ∨ cs.getLast? = some '\n') (ds : List Char) :
    f.get (ofText (cs ++ ds)) =
      if declares f.keyword ds then f.get (ofText ds) else f.get (ofText cs) := by
  rw [f.get_ofText, f.get_ofText, f.get_ofText, entries_append h, declared_append,
    List.getLast?_append]
  cases hdeclares : declares f.keyword ds with
  | false => simp [declared_eq_nil_iff.2 hdeclares]
  | true =>
    have hne : declared f.keyword (entries ds) ≠ [] := by
      rw [ne_eq, declared_eq_nil_iff, hdeclares, Bool.not_eq_false]
    simp [List.getLast?_eq_some_getLast hne]

/-! ## Rules and faults -/

theorem Draft.rules_ofText_append (h : cs = [] ∨ cs.getLast? = some '\n') (ds : List Char) :
    (ofText (cs ++ ds)).rules.toList = (ofText cs).rules.toList ++ (ofText ds).rules.toList := by
  rw [rules_ofText, rules_ofText, rules_ofText, entries_append h, List.filterMap_append]

/-- What is wrong with a line does not depend on where the line stands. -/
theorem Entry.fault?_shift (e : Entry) (lines bytes : Nat) (line : Line) :
    e.fault? (line.shift lines bytes) = (e.fault? line).map (Fault.shift lines bytes) := by
  cases e with
  | malformed defect span => simp [Entry.fault?, Fault.shift, Line.shift, Span.shift, Nat.add_assoc]
  | declaration | rule | unrecognized => rfl

/-- The faults of two texts in one are those of the first and then those of the second, moved to their new
place. -/
theorem Draft.faults_ofText_append (h : cs = [] ∨ cs.getLast? = some '\n') (ds : List Char) :
    (ofText (cs ++ ds)).faults.toList = (ofText cs).faults.toList ++
      (ofText ds).faults.toList.map (Fault.shift (cs.count '\n') (byteLength cs)) := by
  rw [faults_ofText, faults_ofText, faults_ofText, contentLines_append h, List.filterMap_append,
    List.filterMap_map, List.map_filterMap]
  refine congrArg _ (List.filterMap_congr fun line _ => ?_)
  exact Entry.fault?_shift (Entry.ofText line.text) _ _ line

/-! ## Notices -/

theorem Notice.line_shift (lines bytes : Nat) (notice : Notice) :
    (notice.shift lines bytes).line = lines + notice.line := by cases notice <;> rfl

/-- What is remarked about a line depends on where it stands only by the place that is shown. -/
theorem Entry.notice?_shift (e : Entry) (lines bytes : Nat) (line : Line)
    (declared : Keyword → Bool) : e.notice? (line.shift lines bytes) declared =
      (e.notice? line declared).map (Notice.shift lines bytes) := by
  have hspan := Line.span_shift lines bytes line
  cases e with
  | declaration k value =>
    by_cases hk : declared k
    · simp only [Entry.notice?, hk, if_true, hspan, Option.map_some, Notice.shift]
      rfl
    · simp [Entry.notice?, hk]
  | unrecognized =>
    simp only [Entry.notice?, hspan, Option.map_some, Notice.shift]
    rfl
  | rule | malformed => rfl

/-- Where lines stand has no say in what is declared, so their notices move along with them. -/
theorem Draft.noticesAfter_shift (lines bytes : Nat) (ls : List Line) {draft draft' : Draft}
    (h : draft.isDeclared = draft'.isDeclared) :
    draft.noticesAfter (ls.map (Line.shift lines bytes)) =
      (draft'.noticesAfter ls).map (Notice.shift lines bytes) := by
  induction ls generalizing draft draft' with
  | nil => rfl
  | cons line ls ih =>
    have htext : (line.shift lines bytes).text = line.text := rfl
    have hadd : (draft.add (line.shift lines bytes)).isDeclared = (draft'.add line).isDeclared := by
      funext k
      by_cases hk : k = .transitions
      · subst hk
        rfl
      · rw [isDeclared_add hk, isDeclared_add hk, h, htext]
    rw [List.map_cons, noticesAfter, noticesAfter, ih hadd, h, List.map_append, htext,
      Entry.notice?_shift, Option.toList_map]

/-- A redeclaration is remarked where the second text first declares a keyword that the first one declared,
the one of the rules aside. -/
theorem mem_redeclarations {notice : Notice} : notice ∈ redeclarations cs ds ↔
    ∃ k, k ≠ .transitions ∧ declares k cs = true ∧
      ∃ line, firstDeclaration? k ds = some line ∧ notice = .redeclared line.number line.span k := by
  simp only [redeclarations, List.mem_filterMap, List.mem_filter, Keyword.mem_all, true_and,
    decide_eq_true_iff, Option.map_eq_some_iff, and_assoc, @eq_comm _ notice]

/-- The redeclarations are all different, since each is about a keyword of its own. -/
theorem nodup_redeclarations (cs ds : List Char) : (redeclarations cs ds).Nodup := by
  have hall : Keyword.all.Nodup := by decide
  refine List.Pairwise.filterMap _ ?_ (hall.filter _)
  intro k k' hne notice hk notice' hk' heq
  obtain ⟨line, -, rfl⟩ := Option.map_eq_some_iff.1 hk
  obtain ⟨line', -, rfl⟩ := Option.map_eq_some_iff.1 hk'
  exact hne (Notice.redeclared.inj heq).2.2

/-- No two notices of a text are equal, since no line has two. -/
theorem Draft.nodup_noticesAfter (draft : Draft) (cs : List Char) :
    (draft.noticesAfter (contentLines cs)).Nodup :=
  (pairwise_line_noticesAfter draft cs).imp fun hlt heq => Nat.ne_of_lt hlt (congrArg Notice.line heq)

/-- What is only remarked because of the first text is not remarked about the second alone. -/
theorem Draft.disjoint_redeclarations (cs ds : List Char) :
    (ofText ds).notices.toList.Disjoint (redeclarations cs ds) := by
  intro notice hnotice hredeclared
  obtain ⟨k, -, -, line, hfirst, rfl⟩ := mem_redeclarations.1 hredeclared
  obtain ⟨-, -, hfirst⟩ := firstDeclaration?_eq_some_iff.1 hfirst
  obtain ⟨line', -, ⟨-, -, h⟩ | ⟨k', -, -, ⟨earlier, hearlier, hlt, hhead⟩, h⟩⟩ :=
    mem_notices_ofText.1 hnotice
  · contradiction
  · obtain ⟨hnumber, -, rfl⟩ := Notice.redeclared.inj h
    exact hfirst earlier hearlier (hnumber ▸ hlt) hhead

/-- Behind another text there are more notices: of the first declarations of what that text declares. -/
theorem Draft.noticesAfter_ofText_perm (cs ds : List Char) :
    ((ofText cs).noticesAfter (contentLines ds)).Perm
      ((ofText ds).notices.toList ++ redeclarations cs ds) := by
  have hnodup : ((ofText ds).notices.toList ++ redeclarations cs ds).Nodup := by
    refine List.Nodup.append ?_ (nodup_redeclarations cs ds) (disjoint_redeclarations cs ds)
    rw [notices_ofText]
    exact nodup_noticesAfter {} ds
  refine (List.perm_ext_iff_of_nodup (nodup_noticesAfter _ ds) hnodup).2 fun notice => ?_
  rw [List.mem_append, mem_noticesAfter_contentLines, mem_notices_ofText, mem_redeclarations]
  constructor
  · rintro ⟨line, hline, hunrecognized | ⟨k, hk, hhead, hdeclared, rfl⟩⟩
    · exact .inl ⟨line, hline, .inl hunrecognized⟩
    · -- a declaration is noticed here by itself, unless it is the first one of the second text
      by_cases hearlier : ∃ earlier ∈ contentLines ds,
          earlier.number < line.number ∧ k.head <+: earlier.text
      · exact .inl ⟨line, hline, .inr ⟨k, hk, hhead, hearlier, rfl⟩⟩
      · right
        have hcs := hdeclared.resolve_left hearlier
        rw [isDeclared_ofText hk] at hcs
        refine ⟨k, hk, hcs, line, firstDeclaration?_eq_some_iff.2 ⟨hline, hhead, ?_⟩, rfl⟩
        exact fun earlier hmem hlt hhead' => hearlier ⟨earlier, hmem, hlt, hhead'⟩
  · rintro (⟨line, hline, hunrecognized | ⟨k, hk, hhead, hearlier, rfl⟩⟩ |
      ⟨k, hk, hcs, line, hfirst, rfl⟩)
    · exact ⟨line, hline, .inl hunrecognized⟩
    · exact ⟨line, hline, .inr ⟨k, hk, hhead, .inl hearlier, rfl⟩⟩
    · obtain ⟨hline, hhead, -⟩ := firstDeclaration?_eq_some_iff.1 hfirst
      rw [← isDeclared_ofText hk] at hcs
      exact ⟨line, hline, .inr ⟨k, hk, hhead, .inr hcs, rfl⟩⟩

end Join

/-- **Texts one after the other.** After a text that is empty or ends in a line feed, a text adds to the
draft what it says alone, and a notice for the first declaration of each keyword that the text before it
declares too. -/
theorem Draft.ofText_append_isJoin {cs : List Char} (h : cs = [] ∨ cs.getLast? = some '\n')
    (ds : List Char) : IsJoin cs ds (ofText (cs ++ ds)) where
  states := statesField.get_ofText_append h ds
  inputAlphabet := inputField.get_ofText_append h ds
  stackAlphabet := stackField.get_ofText_append h ds
  start := startField.get_ofText_append h ds
  accept := acceptField.get_ofText_append h ds
  rules epsilon := by rw [rules_ofText_append h, List.map_append]
  faults := faults_ofText_append h ds
  notices := by
    refine ⟨((ofText cs).noticesAfter (contentLines ds)).map
      (Notice.shift (cs.count '\n') (byteLength cs)), ?_, ?_, ?_⟩
    · rw [ofText_append h, notices_foldl_add, noticesAfter_shift _ _ _ rfl]
    · refine List.pairwise_map.2 ((pairwise_line_noticesAfter (ofText cs) ds).imp ?_)
      intro a b hlt
      rw [Notice.line_shift, Notice.line_shift]
      omega
    · exact (noticesAfter_ofText_perm cs ds).map _

/-- A text that declares the states and the start state, behind a line of wide characters. -/
def declaringStates : List Char := "é …\nstates:a\nstart_state:q\nq a b -> r\n".toList

/-- A text that declares the states twice and the accept states once. -/
def declaringTwice : List Char := "a -> b\nstates:b\naccept_states:b\nnothing\nstates:c".toList

theorem Draft.ofText_append_isJoin_declaringTwice :
    declaringStates.getLast? = some '\n' ∧
      ((ofText (declaringStates ++ declaringTwice)).notices.toList.map Notice.line = [1, 6, 8, 9]) ∧
      IsJoin declaringStates declaringTwice (ofText (declaringStates ++ declaringTwice)) :=
  ⟨rfl, rfl, ofText_append_isJoin (.inr rfl) declaringTwice⟩

end PDA.Format
