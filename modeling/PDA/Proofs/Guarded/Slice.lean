import PDA.Proofs.Text.Line
import PDA.Proofs.Format.RuleLine

/-!
# Slices of a text

A slice is a piece of a text together with the address at which it stands in memory. Cutting a slice at a
byte, or asking where one slice stands in another one, makes sense only under conditions that nothing
enforces; here each such operation checks its condition and ends in a trap if it does not hold.

Cutting at the first arrow never traps (`Slice.takeBytes_of_append`, `Slice.dropBytes_of_append`), and a
slice that was trimmed is found in the one that it was trimmed from (`Slice.offsetIn_trim`).
-/

namespace PDA.Guarded

open Text Format

/-- Why a program cannot go on. -/
inductive Trap
  /-- A slice is cut past its end or within a character. -/
  | badCut
  /-- What is looked for is taken to be there, and is not. -/
  | notFound
  /-- A slice begins before the one that it should be part of. -/
  | startsBefore
  /-- A slice ends after the one that it should be part of. -/
  | endsAfter
  /-- A list has no such element. -/
  | badIndex
  /-- A case comes up that is taken to be impossible. -/
  | unreachable
  /-- A write fails. -/
  | writeFailed
  /-- Bytes are taken to be a text, and are not. -/
  | invalidText
  /-- A number is drawn from an empty range. -/
  | emptyRange
  deriving DecidableEq

/-- The element of a list at a position that it is taken to have. -/
def getAt {α : Type} (as : List α) (i : Nat) : Except Trap α :=
  match as[i]? with
  | some a => .ok a
  | none => .error .badIndex

theorem getAt_of_lt {α : Type} {as : List α} {i : Nat} (h : i < as.length) :
    getAt as i = .ok as[i] := by
  rw [getAt, List.getElem?_eq_getElem h]

theorem ok_bind {α β : Type} (a : α) (f : α → Except Trap β) : (Except.ok a >>= f) = f a := rfl

theorem map_eq_ok_iff {α β : Type} {x : Except Trap α} {f : α → β} {b : β} :
    x.map f = .ok b ↔ ∃ a, x = .ok a ∧ f a = b := by
  cases x <;> simp [Except.map]

/-- A piece of a text and the address of its first byte. -/
structure Slice where
  address : Nat
  text : List Char
  deriving DecidableEq

/-- Cut a text before its byte number `n`. -/
def cutAt (n : Nat) : List Char → Except Trap (List Char × List Char)
  | [] => if n = 0 then .ok ([], []) else .error .badCut
  | c :: cs =>
    if n = 0 then .ok ([], c :: cs)
    else if c.utf8Size ≤ n then (cutAt (n - c.utf8Size) cs).map fun p => (c :: p.1, p.2)
    else .error .badCut

/-- The byte at which a pattern begins for the first time. -/
def find? (pattern : List Char) : List Char → Option Nat
  | [] => if pattern.isEmpty then some 0 else none
  | c :: cs =>
    if pattern.isPrefixOf (c :: cs) then some 0 else (find? pattern cs).map (c.utf8Size + ·)

/-- The pieces of a text between white space, as slices; the text begins at `address`. -/
def piecesFrom (address : Nat) : List Char → List Slice
  | [] => [⟨address, []⟩]
  | c :: cs =>
    if isSpace c then ⟨address, []⟩ :: piecesFrom (address + c.utf8Size) cs
    else (piecesFrom (address + c.utf8Size) cs).modifyHead fun piece => ⟨address, c :: piece.text⟩

/-- Lines as slices, each with the line feed that ends it. The last one has none, and it is left out if it
is empty. -/
def rawLines (address : Nat) : List (List Char) → List Slice
  | [] => []
  | [last] => if last.isEmpty then [] else [⟨address, last⟩]
  | line :: rest => ⟨address, line ++ ['\n']⟩ :: rawLines (address + byteLength line + 1) rest

namespace Slice

/-- The number of bytes of a slice. -/
def size (s : Slice) : Nat := byteLength s.text

/-- The first `n` bytes of a slice. -/
def takeBytes (s : Slice) (n : Nat) : Except Trap Slice := (cutAt n s.text).map fun p => ⟨s.address, p.1⟩

/-- A slice without its first `n` bytes. -/
def dropBytes (s : Slice) (n : Nat) : Except Trap Slice :=
  (cutAt n s.text).map fun p => ⟨s.address + n, p.2⟩

/-- The slice without the white space at its ends. -/
def trim (s : Slice) : Slice where
  address := s.address + byteLength (s.text.takeWhile isSpace)
  text := Text.trim s.text

/-- The words of a slice. -/
def words (s : Slice) : List Slice := (piecesFrom s.address s.text).filter (!·.text.isEmpty)

/-- How many bytes of the whole slice stand before a part of it. -/
def offsetIn (part whole : Slice) : Except Trap Nat :=
  if part.address < whole.address then .error .startsBefore
  else if part.address - whole.address + part.size ≤ whole.size then
    .ok (part.address - whole.address)
  else .error .endsAfter

end Slice

/-! ## Cutting -/

/-- A text can be cut between two characters. -/
theorem cutAt_byteLength (left right : List Char) :
    cutAt (byteLength left) (left ++ right) = .ok (left, right) := by
  induction left with
  | nil => cases right <;> rfl
  | cons c left ih =>
    have hpos : 0 < c.utf8Size := c.utf8Size_pos
    have hne : byteLength (c :: left) ≠ 0 := by rw [byteLength_cons]; omega
    rw [List.cons_append, cutAt, if_neg hne, byteLength_cons, if_pos (Nat.le_add_right _ _),
      Nat.add_sub_cancel_left, ih]
    rfl

/-- A text is cut only between two characters. -/
theorem cutAt_eq_ok_iff {n : Nat} {cs left right : List Char} :
    cutAt n cs = .ok (left, right) ↔ cs = left ++ right ∧ n = byteLength left := by
  constructor
  · intro h
    induction cs generalizing n left with
    | nil =>
      rw [cutAt] at h
      split at h
      · obtain ⟨rfl, rfl⟩ := Prod.mk.inj (Except.ok.inj h)
        exact ⟨rfl, by assumption⟩
      · contradiction
    | cons c cs ih =>
      rw [cutAt] at h
      split at h
      · obtain ⟨rfl, rfl⟩ := Prod.mk.inj (Except.ok.inj h)
        exact ⟨rfl, by assumption⟩
      · split at h
        · rename_i hsize
          obtain ⟨⟨front, back⟩, hcut, hpair⟩ := map_eq_ok_iff.1 h
          obtain ⟨rfl, rfl⟩ := Prod.mk.inj hpair
          obtain ⟨rfl, hn⟩ := ih hcut
          refine ⟨rfl, ?_⟩
          simp only [byteLength_cons] at hn ⊢
          omega
        · contradiction
  · rintro ⟨rfl, rfl⟩
    exact cutAt_byteLength left right

/-- The first byte of a character of two bytes is no place to cut at. -/
example : cutAt 2 ['a', 'λ'] = .error .badCut := rfl

namespace Slice

theorem takeBytes_of_append {s : Slice} {left right : List Char} (h : s.text = left ++ right) :
    s.takeBytes (byteLength left) = .ok ⟨s.address, left⟩ := by
  rw [takeBytes, cutAt_eq_ok_iff.2 ⟨h, rfl⟩]
  rfl

theorem dropBytes_of_append {s : Slice} {left right : List Char} (h : s.text = left ++ right) :
    s.dropBytes (byteLength left) = .ok ⟨s.address + byteLength left, right⟩ := by
  rw [dropBytes, cutAt_eq_ok_iff.2 ⟨h, rfl⟩]
  rfl

end Slice

theorem byteLength_le_of_isInfix {xs cs : List Char} (h : xs <:+: cs) :
    byteLength xs ≤ byteLength cs := by
  obtain ⟨before, after, rfl⟩ := h
  rw [byteLength_append, byteLength_append]
  omega

/-! ## Looking for an arrow -/

theorem find?_of_not_hasArrow {cs : List Char} (h : ¬ HasArrow cs) : find? arrow cs = none := by
  induction cs with
  | nil => rfl
  | cons c cs ih =>
    rw [hasArrow_cons_iff, not_or] at h
    have hbegin : arrow.isPrefixOf (c :: cs) = false := by
      rw [Bool.eq_false_iff, ne_eq, List.isPrefixOf_iff_prefix, arrow_isPrefix_cons_iff]
      exact h.1
    rw [find?, hbegin, if_neg Bool.false_ne_true, ih h.2]
    rfl

/-- The first arrow is found where it is. -/
theorem find?_append_arrow {left : List Char} (h : ¬ HasArrow left) (right : List Char) :
    find? arrow (left ++ arrow ++ right) = some (byteLength left) := by
  induction left with
  | nil => rfl
  | cons c left ih =>
    rw [hasArrow_cons_iff, not_or] at h
    have hbegin : arrow.isPrefixOf (c :: (left ++ arrow ++ right)) = false := by
      rw [Bool.eq_false_iff, ne_eq, List.isPrefixOf_iff_prefix, arrow_isPrefix_cons_iff]
      exact not_head_arrow h.1 right
    rw [List.cons_append, List.cons_append, find?, hbegin, if_neg Bool.false_ne_true, ih h.2]
    rfl

/-! ## Words -/

theorem map_text_piecesFrom (address : Nat) (cs : List Char) :
    (piecesFrom address cs).map Slice.text = cs.splitOnP isSpace := by
  induction cs generalizing address with
  | nil => rfl
  | cons c cs ih =>
    rw [piecesFrom, List.splitOnP_cons_eq_if_modifyHead, ← ih (address + c.utf8Size)]
    split
    · rfl
    · cases piecesFrom (address + c.utf8Size) cs <;> rfl

theorem exists_piecesFrom_cons {c : Char} (hc : isSpace c = false) (address : Nat) (cs : List Char) :
    ∃ text rest, piecesFrom address (c :: cs) = ⟨address, c :: text⟩ :: rest := by
  have hne : piecesFrom (address + c.utf8Size) cs ≠ [] := by
    intro hnil
    have htexts := map_text_piecesFrom (address + c.utf8Size) cs
    rw [hnil] at htexts
    exact List.splitOnP_ne_nil isSpace cs htexts.symm
  obtain ⟨piece, rest, hpieces⟩ := List.exists_cons_of_ne_nil hne
  rw [piecesFrom, if_neg (by simp [hc]), hpieces]
  exact ⟨_, _, rfl⟩

namespace Slice

/-- The words of a slice are those of its text. -/
theorem map_text_words (s : Slice) : s.words.map text = Text.words s.text := by
  rw [words, Text.words, ← map_text_piecesFrom s.address, List.filter_map]
  rfl

/-- The first word of a slice that does not begin with white space stands at its beginning. -/
theorem address_of_words_eq_cons {s word : Slice} {rest : List Slice}
    (h : s.words = word :: rest) (hs : NoLeadingSpace s.text) : word.address = s.address := by
  rw [words] at h
  cases htext : s.text with
  | nil => simp [htext, piecesFrom] at h
  | cons c cs =>
    have hc : isSpace c = false := hs c (by rw [htext, List.head?_cons, Option.mem_def])
    obtain ⟨text, rest, hpieces⟩ := exists_piecesFrom_cons hc s.address cs
    rw [htext, hpieces, List.filter_cons_of_pos (by simp)] at h
    rw [← (List.cons.inj h).1]

end Slice

/-! ## Offsets -/

namespace Slice

/-- An offset is told exactly if the part lies within the whole. -/
theorem offsetIn_eq_ok_iff {part whole : Slice} {n : Nat} : part.offsetIn whole = .ok n ↔
    part.address = whole.address + n ∧ n + part.size ≤ whole.size := by
  rw [offsetIn]
  split
  · simp
    omega
  · split
    · simp
      omega
    · simp
      omega

/-- What trimming leaves lies within the whole, after the white space that leads. -/
theorem offsetIn_trim (s : Slice) :
    s.trim.offsetIn s = .ok (byteLength (s.text.takeWhile isSpace)) := by
  refine offsetIn_eq_ok_iff.2 ⟨rfl, ?_⟩
  obtain ⟨trail, -, htrail⟩ := exists_eq_append_trim s.text
  have hlength := congrArg byteLength htrail
  rw [byteLength_append, byteLength_append] at hlength
  simp only [size, trim]
  omega

end Slice

end PDA.Guarded
