import PDA.Format.Keyword
import PDA.Text.Fuzzy
import PDA.Text.Split

/-!
# Suggestions for unrecognized lines

A line that is neither a declaration nor a rule may be a misspelt declaration. The keywords of which
its head is a subsequence are suggested, those that match best first.
-/

namespace PDA.Format

open Text

/-- The part of an unrecognized line that may be meant as a keyword: what stands before the first
colon, or the first word if there is no colon. -/
def lineHead (text : List Char) : List Char :=
  match text.splitOn ':' with
  | name :: _ :: _ => trim name
  | _ => (words text).head?.getD text

/-- The keywords that match a pattern, with their scores, in the order of `Keyword.all`. -/
def candidates (pattern : List Char) : List (Keyword × Int) :=
  Keyword.all.filterMap fun k => (Fuzzy.score? k.name.toList pattern).map (k, ·)

/-- The keywords to suggest for a pattern: at most three, best first, in the order of `Keyword.all`
where scores are equal. -/
def suggestions (pattern : List Char) : List Keyword :=
  (((candidates pattern).mergeSort fun a b => b.2 ≤ a.2).take 3).map Prod.fst

end PDA.Format
