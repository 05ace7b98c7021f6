/-
# Breaking text into lines

Text is broken between words so that the lines are as even as they can be: a
line that leaves `d` columns free costs `d²`, the last one costs nothing, and a
line that is too long costs much more.  Of two ways with the same cost the one
with the earlier first break wins.

Words are what stands between single blanks, so that two blanks have an empty
word between them.
-/

import ConstantTime.Text.Width

namespace ConstantTime
namespace Text

/-- What a line costs that is too long. -/
def overlong : Int := 100000

/-- No way of breaking costs as much. -/
def costLimit : Int := 2147483647

/-- The width of words on one line. -/
def lineWidth (words : List String) : Nat :=
  words.foldl (fun n w => n + width w) 0 + (words.length - 1)

/-- How the words from a position on are broken: the cost, and the number of words
on their first line. -/
structure Break where
  cost : Int
  count : Nat
deriving DecidableEq, Repr, Inhabited

/-- The best first line of some words, of those with at least `count` words.
`later` are the breaks after one more word, after two, and so on. -/
def bestBreak (limit : Nat) (words : List String) (best : Break) :
    (count : Nat) → (later : List Break) → Break
  | _, [] => best
  | count, b :: later =>
    let w := lineWidth (words.take count)
    let free : Int := (limit : Int) - w
    let cost := free * free + b.cost + (if limit < w then overlong else 0)
    bestBreak limit words (if cost < best.cost then ⟨cost, count⟩ else best) (count + 1) later

/-- The breaks of some words and of all their ends, the longest first. -/
def breaks (limit : Nat) : List String → List Break
  | [] => []
  | w :: rest =>
    let later := breaks limit rest
    let words := w :: rest
    if lineWidth words ≤ limit then ⟨0, words.length⟩ :: later
    else bestBreak limit words ⟨costLimit, 0⟩ 1 later :: later

/-- Lines of as many words as the breaks say; `fuel` need not exceed the number of
words. -/
def cutLines : (fuel : Nat) → List String → List Break → List (List String)
  | 0, _, _ => []
  | _ + 1, _, [] => []
  | fuel + 1, words, b :: later =>
    words.take b.count ::
      cutLines fuel (words.drop b.count) ((b :: later).drop b.count)

/-- A text as lines of a given width; a longer word widens all of them. -/
def wrap (limit : Nat) (s : String) : List String :=
  let words := (s.replace "\n" " ").splitOn " "
  let limit := max limit (widest words)
  (cutLines words.length words (breaks limit words)).map (String.intercalate " ")

end Text
end ConstantTime
