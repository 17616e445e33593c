import Mathlib.Data.List.Perm.Subperm
import PDA.Proofs.Format.Notices
import PDA.Proofs.Text.Fuzzy

/-!
# Which keywords are suggested

The keywords that match the head of a line are those of which it is a subsequence (`isSome_score?_iff`).
Of them the three best are suggested, or all if there are fewer: sorting by score keeps the order of the
keywords where scores are equal (`pairwise_mergeSort`), so the list is fixed by what is said about it
(`areSuggestions_iff`).
-/

namespace PDA.Format

open Text

/-! ## Heads of lines -/

/-- `head` is what stands before the first colon of a line, without the white space around it; if the line
has no colon, it is the word with which the line begins. -/
inductive IsHead (head : List Char) : List Char → Prop
  /-- The line has a colon. -/
  | beforeColon {margin gap rest : List Char} (hcolon : ':' ∉ margin ++ head ++ gap)
      (hmargin : ∀ c ∈ margin, isSpace c = true) (hgap : ∀ c ∈ gap, isSpace c = true)
      (hstart : NoLeadingSpace head) (hend : NoTrailingSpace head) :
      IsHead head (margin ++ head ++ gap ++ ':' :: rest)
  /-- The line has no colon. -/
  | firstWord {rest : List Char} (hcolon : ':' ∉ head ++ rest) (hword : IsWord head)
      (hrest : ∀ c ∈ rest.head?, isSpace c = true) : IsHead head (head ++ rest)

section Head

variable {line head : List Char}

theorem lineHead_append_colon {cs : List Char} (h : ':' ∉ cs) (rest : List Char) :
    lineHead (cs ++ ':' :: rest) = trim cs := by
  obtain ⟨value, more, hsplit⟩ := List.exists_cons_of_ne_nil (List.splitOn_ne_nil ':' rest)
  simp only [lineHead, List.splitOn_append_cons_self_of_not_mem h, hsplit]

theorem lineHead_of_not_mem (h : ':' ∉ line) : lineHead line = (words line).head?.getD line := by
  simp only [lineHead, List.splitOn_eq_singleton h]

/-- A line has no more than one head, and that is the one that is looked for. -/
theorem IsHead.eq_lineHead (h : IsHead head line) : head = lineHead line := by
  cases h with
  | beforeColon hcolon hmargin hgap hstart hend =>
    rw [lineHead_append_colon hcolon, trim_margins hmargin hgap hstart hend]
  | firstWord hcolon hword hrest =>
    rw [lineHead_of_not_mem hcolon, words_append_of_head? hword hrest]
    rfl

/-- The text between its margins. -/
theorem exists_margins (cs : List Char) : ∃ margin inner gap, cs = margin ++ inner ++ gap ∧
    (∀ c ∈ margin, isSpace c = true) ∧ (∀ c ∈ gap, isSpace c = true) ∧ NoLeadingSpace inner ∧
      NoTrailingSpace inner := by
  obtain ⟨gap, hgap, hcs⟩ := exists_eq_append_trim cs
  exact ⟨cs.takeWhile isSpace, trim cs, gap, hcs, fun c hc => List.mem_takeWhile_imp hc, hgap,
    noLeadingSpace_trim cs, noTrailingSpace_trim cs⟩

/-- A text that begins with a visible character begins with a word. -/
theorem exists_word_append {cs : List Char} (hstart : NoLeadingSpace cs) (hne : cs ≠ []) :
    ∃ w rest, cs = w ++ rest ∧ IsWord w ∧ ∀ c ∈ rest.head?, isSpace c = true := by
  refine ⟨cs.takeWhile (!isSpace ·), cs.dropWhile (!isSpace ·),
    List.takeWhile_append_dropWhile.symm, ⟨?_, ?_⟩, ?_⟩
  · obtain ⟨c, cs, rfl⟩ := List.exists_cons_of_ne_nil hne
    have hc : isSpace c = false := hstart c rfl
    simp [hc]
  · intro c hc
    simpa using List.mem_takeWhile_imp hc
  · intro c hc
    have hfirst := List.head?_dropWhile_not (!isSpace ·) cs
    rw [Option.mem_def.1 hc] at hfirst
    simpa using hfirst

theorem exists_isHead (hstart : NoLeadingSpace line) (hne : line ≠ []) :
    ∃ head, IsHead head line := by
  by_cases hcolon : ':' ∈ line
  · obtain ⟨front, rest, rfl, hfront⟩ := List.eq_append_cons_of_mem hcolon
    obtain ⟨margin, head, gap, rfl, hmargin, hgap, hs, he⟩ := exists_margins front
    exact ⟨head, .beforeColon hfront hmargin hgap hs he⟩
  · obtain ⟨head, rest, rfl, hword, hrest⟩ := exists_word_append hstart hne
    exact ⟨head, .firstWord hcolon hword hrest⟩

/-- A line has one head. -/
theorem isHead_iff (hstart : NoLeadingSpace line) (hne : line ≠ []) :
    IsHead head line ↔ head = lineHead line := by
  refine ⟨IsHead.eq_lineHead, ?_⟩
  rintro rfl
  obtain ⟨head, hhead⟩ := exists_isHead hstart hne
  exact hhead.eq_lineHead ▸ hhead

end Head

/-! ## Keywords that match -/

/-- The score of a keyword. -/
def score? (head : List Char) (k : Keyword) : Option Int := Fuzzy.score? k.name.toList head

theorem Keyword.isUpper_of_mem_name (k : Keyword) : ∀ c ∈ k.name.toList, c.isUpper = false := by
  have hname : k.name.toList.any Char.isUpper = false := by cases k <;> rfl
  intro c hc
  rw [← Bool.not_eq_true]
  exact List.any_eq_false.1 hname c hc

/-- A keyword can be suggested exactly if the characters of the head stand in its name, in order. -/
theorem isSome_score?_iff {head : List Char} {k : Keyword} :
    (score? head k).isSome ↔ head.Sublist k.name.toList :=
  Fuzzy.isSome_score?_iff k.isUpper_of_mem_name

theorem score?_eq_none_of_mem {head : List Char} {k : Keyword} {c : Char} (hc : c ∈ head)
    (hname : c ∉ k.name.toList) : score? head k = none := by
  rw [← Option.not_isSome_iff_eq_none, isSome_score?_iff]
  exact fun hsub => hname (hsub.subset hc)

/-- What there is to say about the keywords that match. -/
structure MatchesExactly (head : List Char) : Prop where
  candidate_iff : ∀ k, (score? head k).isSome ↔ head.Sublist k.name.toList
  upper : (∃ c ∈ head, c.isUpper = true) → ∀ k, score? head k = none
  foreign : ∀ k : Keyword, (∃ c ∈ head, c ∉ k.name.toList) → score? head k = none

/-- The score exists exactly for the subsequences of the name. -/
theorem matchesExactly (head : List Char) : MatchesExactly head where
  candidate_iff _ := isSome_score?_iff
  upper := by
    rintro ⟨c, hc, hupper⟩ k
    refine score?_eq_none_of_mem hc fun hname => ?_
    rw [k.isUpper_of_mem_name c hname] at hupper
    contradiction
  foreign k := fun ⟨_, hc, hname⟩ => score?_eq_none_of_mem hc hname

/-! ## The order of the candidates -/

/-- The place of a keyword among the keywords. -/
def Keyword.place (k : Keyword) : Nat := Keyword.all.idxOf k

/-- Of two keywords that match, the first one has the higher score, or stands before the other one if
their scores are equal. -/
def Better (head : List Char) (j k : Keyword) : Prop :=
  ∃ s t, score? head j = some s ∧ score? head k = some t ∧ (t < s ∨ t = s ∧ j.place < k.place)

instance (head : List Char) (j k : Keyword) : Decidable (Better head j k) :=
  decidable_of_iff (∃ s ∈ score? head j, ∃ t ∈ score? head k, t < s ∨ t = s ∧ j.place < k.place) <| by
    simp only [Better, Option.mem_def, exists_and_left]

/-- The keywords are the best candidates, at most three of them, in order. -/
structure AreSuggestions (head : List Char) (ks : List Keyword) : Prop where
  candidates : ∀ k ∈ ks, head.Sublist k.name.toList
  length_eq : ks.length = min 3 (Keyword.all.countP fun k => head.Sublist k.name.toList)
  best_first : ks.Pairwise (Better head)
  none_better : ∀ j ∈ ks, ∀ k ∉ ks, head.Sublist k.name.toList → Better head j k
  nodup : ks.Nodup
  few : ks.length < 3 → ∀ k : Keyword, head.Sublist k.name.toList → k ∈ ks

section Order

variable {head : List Char} {j k : Keyword} {ks ks' : List Keyword}

/-- Of two keywords one at most is better. -/
theorem Better.asymm (h : Better head j k) : ¬ Better head k j := by
  rintro ⟨t', s', ht', hs', hkj⟩
  obtain ⟨s, t, hs, ht, hjk⟩ := h
  obtain rfl := Option.some.inj (hs.symm.trans hs')
  obtain rfl := Option.some.inj (ht.symm.trans ht')
  omega

/-- Sorting by descending values keeps the order of elements with equal values. -/
theorem filter_mergeSort {α : Type} (f : α → Int) (as : List α) (n : Int) :
    (as.mergeSort fun a b => f b ≤ f a).filter (f · = n) = as.filter (f · = n) := by
  have hequal : (as.filter (f · = n)).Pairwise fun a b => decide (f b ≤ f a) = true := by
    refine List.pairwise_of_forall_mem_list fun a ha b hb => ?_
    have ha : f a = n := by simpa using (List.mem_filter.1 ha).2
    have hb : f b = n := by simpa using (List.mem_filter.1 hb).2
    simp [ha, hb]
  have hsub := (List.sublist_mergeSort (by simp; omega) (by simp; omega) hequal
    List.filter_sublist).filter (f · = n)
  simp only [List.filter_filter, Bool.and_self] at hsub
  exact (hsub.eq_of_length ((as.mergeSort_perm _).filter _).length_eq.symm).symm

/-- Elements that are sorted by descending values are in the order of their values, and those of equal
values in the order in which they were before. -/
theorem pairwise_mergeSort {α : Type} {r : α → α → Prop} (f : α → Int) {as : List α}
    (h : as.Pairwise r) :
    (as.mergeSort fun a b => f b ≤ f a).Pairwise fun a b => f b < f a ∨ f b = f a ∧ r a b := by
  have hsorted : (as.mergeSort fun a b => f b ≤ f a).Pairwise fun a b => decide (f b ≤ f a) = true :=
    List.pairwise_mergeSort (by simp; omega) (by simp; omega) as
  refine List.pairwise_iff_forall_sublist.2 fun {a b} hab => ?_
  have hle : f b ≤ f a := by simpa using List.pairwise_iff_forall_sublist.1 hsorted hab
  rcases Int.lt_or_eq_of_le hle with hlt | heq
  · exact .inl hlt
  · refine .inr ⟨heq, ?_⟩
    have hpair := hab.filter (f · = f a)
    rw [filter_mergeSort, List.filter_cons_of_pos (by simp), List.filter_cons_of_pos (by simp [heq]),
      List.filter_nil] at hpair
    exact List.pairwise_iff_forall_sublist.1 (h.sublist List.filter_sublist) hpair

/-- The candidates with their scores, the best one first. -/
def ranking (head : List Char) : List (Keyword × Int) :=
  (candidates head).mergeSort fun a b => b.2 ≤ a.2

theorem mem_candidates {s : Int} : (k, s) ∈ candidates head ↔ score? head k = some s := by
  simp only [candidates, List.mem_filterMap, Option.map_eq_some_iff, Prod.mk.injEq]
  constructor
  · rintro ⟨k', -, s', hs, rfl, rfl⟩
    exact hs
  · intro hs
    exact ⟨k, Keyword.mem_all k, s, hs, rfl, rfl⟩

theorem mem_ranking {s : Int} : (k, s) ∈ ranking head ↔ score? head k = some s := by
  rw [ranking, List.mem_mergeSort, mem_candidates]

theorem pairwise_place_candidates (head : List Char) :
    (candidates head).Pairwise fun a b => a.1.place < b.1.place := by
  have hall : Keyword.all.Pairwise fun j k => j.place < k.place := by decide
  refine List.pairwise_filterMap.2 (hall.imp fun {j k} hjk a ha b hb => ?_)
  obtain ⟨s, -, rfl⟩ := Option.map_eq_some_iff.1 ha
  obtain ⟨t, -, rfl⟩ := Option.map_eq_some_iff.1 hb
  exact hjk

/-- The ranking goes from the better to the worse. -/
theorem pairwise_ranking (head : List Char) :
    (ranking head).Pairwise fun a b => Better head a.1 b.1 := by
  have hsorted := pairwise_mergeSort Prod.snd (pairwise_place_candidates head)
  refine hsorted.imp_of_mem fun {a b} ha hb hab => ?_
  exact ⟨a.2, b.2, mem_ranking.1 ha, mem_ranking.1 hb, hab⟩

theorem length_ranking (head : List Char) :
    (ranking head).length = Keyword.all.countP fun k => head.Sublist k.name.toList := by
  rw [ranking, List.length_mergeSort, candidates, List.length_filterMap_eq_countP]
  refine List.countP_congr fun k _ => ?_
  rw [Option.isSome_map, decide_eq_true_iff]
  exact isSome_score?_iff

theorem mem_map_ranking : k ∈ (ranking head).map Prod.fst ↔ head.Sublist k.name.toList := by
  rw [← isSome_score?_iff, Option.isSome_iff_exists, List.mem_map]
  constructor
  · rintro ⟨⟨k, s⟩, hk, rfl⟩
    exact ⟨s, mem_ranking.1 hk⟩
  · rintro ⟨s, hs⟩
    exact ⟨(k, s), mem_ranking.2 hs, rfl⟩

/-! ## The suggestions -/

/-- The suggestions are the three best of the ranking. -/
theorem suggestions_eq_take (head : List Char) :
    suggestions head = ((ranking head).map Prod.fst).take 3 := List.map_take

/-- The keywords that are suggested are the best of those that the head fits. -/
theorem areSuggestions_suggestions (head : List Char) : AreSuggestions head (suggestions head) := by
  have hall : ((ranking head).map Prod.fst).Pairwise (Better head) :=
    List.pairwise_map.2 (pairwise_ranking head)
  have hsplit := List.take_append_drop 3 ((ranking head).map Prod.fst)
  have hlength : (suggestions head).length =
      min 3 (Keyword.all.countP fun k => head.Sublist k.name.toList) := by
    rw [suggestions_eq_take, List.length_take, List.length_map, length_ranking]
  have hbest : (suggestions head).Pairwise (Better head) := by
    rw [suggestions_eq_take]
    exact hall.sublist (List.take_sublist _ _)
  rw [← hsplit, List.pairwise_append, ← suggestions_eq_take] at hall
  refine ⟨fun k hk => ?_, hlength, hbest, fun j hj k hk hsub => ?_, ?_, fun hfew k hsub => ?_⟩
  · rw [suggestions_eq_take] at hk
    exact mem_map_ranking.1 (List.mem_of_mem_take hk)
  · have hmem := mem_map_ranking.2 hsub
    rw [← hsplit, List.mem_append, ← suggestions_eq_take] at hmem
    exact hall.2.2 j hj k (hmem.resolve_left hk)
  · refine hbest.imp fun {j k} hjk hequal => ?_
    subst hequal
    exact hjk.asymm hjk
  · have hle : ((ranking head).map Prod.fst).length ≤ 3 := by
      rw [List.length_map, length_ranking]
      omega
    rw [suggestions_eq_take, List.take_of_length_le hle]
    exact mem_map_ranking.2 hsub

/-- What is suggested instead would be both better and worse. -/
theorem AreSuggestions.subset (h : AreSuggestions head ks) (h' : AreSuggestions head ks') :
    ks ⊆ ks' := by
  intro k hk
  by_contra hk'
  obtain ⟨j, hj', hj⟩ : ∃ j ∈ ks', j ∉ ks := by
    by_contra hnone
    push Not at hnone
    have hlength : ks.length ≤ ks'.length := by rw [h.length_eq, h'.length_eq]
    exact hk' (((List.subperm_of_subset h'.nodup hnone).perm_of_length_le hlength).mem_iff.2 hk)
  have hkj := h.none_better k hk j hj (h'.candidates j hj')
  exact hkj.asymm (h'.none_better j hj' k hk' (h.candidates k hk))

/-- There is one list of suggestions for a head. -/
theorem areSuggestions_iff : AreSuggestions head ks ↔ ks = suggestions head := by
  constructor
  · intro h
    have h' := areSuggestions_suggestions head
    have hperm : ks.Perm (suggestions head) := (List.perm_ext_iff_of_nodup h.nodup h'.nodup).2
      fun k => ⟨fun hk => h.subset h' hk, fun hk => h'.subset h hk⟩
    exact hperm.eq_of_pairwise (fun j k _ _ hjk hkj => absurd hkj hjk.asymm) h.best_first h'.best_first
  · rintro rfl
    exact areSuggestions_suggestions head

end Order

/-- `ks` is what should be suggested for line number `n` of the text. -/
def SuggestsAt (cs : List Char) (n : Nat) (ks : List Keyword) : Prop :=
  ∃ before line after head, IsLine cs n before line after ∧
    (∀ head', IsHead head' (Text.trim line) ↔ head' = head) ∧ MatchesExactly head ∧
    ∀ ks', AreSuggestions head ks' ↔ ks' = ks

/-- **Suggestions.** A line of a text that is loaded and of which it is noticed that nothing is known of it
has one head. The keywords that match the head are those of which it is a subsequence; the three best of
them are suggested, or all if there are fewer, in order. -/
theorem load_suggestions_exact {epsilon text : String} {loaded : Loaded} {n : Nat} {span : Span}
    {ks : List Keyword} (h : load epsilon text = .ok loaded)
    (hnotice : .unrecognized n span ks ∈ loaded.notices) : SuggestsAt text.toList n ks := by
  obtain ⟨start, -, -, rfl⟩ := load_eq_ok_iff.1 h
  obtain ⟨line, hline, ⟨-, -, hunrecognized⟩ | ⟨k, -, -, -, hredeclared⟩⟩ :=
    Draft.mem_notices_ofText.1 hnotice
  · obtain ⟨rfl, -, rfl⟩ := Notice.unrecognized.inj hunrecognized
    obtain ⟨before, raw, after, hraw, htext, hne, -⟩ := exists_isLine_of_mem_contentLines hline
    rw [htext] at hne ⊢
    exact ⟨before, raw, after, lineHead (Text.trim raw), hraw,
      fun head => isHead_iff (noLeadingSpace_trim raw) hne, matchesExactly _, fun ks' => areSuggestions_iff⟩
  · contradiction

/-- A text with a line whose head is a subsequence of every keyword, and with one whose head is in upper
case. -/
def misspelt : String := "start_state:q\n s : a\nSTATES a\n"

theorem suggestions_s : suggestions ['s'] = [.states, .stackSymbols, .startState] := by
  have hbetter : ∀ j ∈ [Keyword.states, .stackSymbols, .startState], ∀ k ∈ Keyword.all,
      k ∉ [Keyword.states, .stackSymbols, .startState] → Better ['s'] j k := by decide
  refine (areSuggestions_iff.1 ⟨?_, ?_, ?_, ?_, ?_, ?_⟩).symm
  · decide
  · decide
  · decide
  · exact fun j hj k hk _ => hbetter j hj k k.mem_all hk
  · decide
  · intro hfew
    contradiction

theorem load_suggestions_exact_misspelt : ∃ loaded, load "λ" misspelt = .ok loaded ∧
    .unrecognized 2 ⟨15, 20⟩ [.states, .stackSymbols, .startState] ∈ loaded.notices ∧
    SuggestsAt misspelt.toList 2 [.states, .stackSymbols, .startState] ∧
    .unrecognized 3 ⟨21, 29⟩ [] ∈ loaded.notices ∧ SuggestsAt misspelt.toList 3 [] := by
  have hload : ∃ loaded, load "λ" misspelt = .ok loaded ∧ loaded.notices =
      [.unrecognized 2 ⟨15, 20⟩ (suggestions ['s']),
        .unrecognized 3 ⟨21, 29⟩ (suggestions "STATES".toList)] := ⟨_, rfl, rfl⟩
  obtain ⟨loaded, hloaded, hnotices⟩ := hload
  have hnone : suggestions "STATES".toList = [] := by
    have hcandidates : candidates "STATES".toList = [] := by rfl
    rw [suggestions, hcandidates, List.mergeSort_nil]
    rfl
  rw [suggestions_s, hnone] at hnotices
  have hfirst : .unrecognized 2 ⟨15, 20⟩ [.states, .stackSymbols, .startState] ∈ loaded.notices := by
    rw [hnotices]
    exact List.mem_cons_self
  have hsecond : .unrecognized 3 ⟨21, 29⟩ [] ∈ loaded.notices := by
    rw [hnotices]
    exact List.mem_cons_of_mem _ List.mem_cons_self
  exact ⟨loaded, hloaded, hfirst, load_suggestions_exact hloaded hfirst, hsecond,
    load_suggestions_exact hloaded hsecond⟩

end PDA.Format
