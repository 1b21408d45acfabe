import OpeningHours.Period.Basic
import OpeningHours.Span

/-!
# From spans to periods

What is given for some scales, in whatever order, is taken by rank, the finest scale first. A
combination takes one span on each scale. Its finest span is the stretch of each of its periods, and
each choice of values on the coarser scales is one period.
-/

namespace OpeningHours

/-- What is given for some scales, the finest scale first. -/
def byRank {α : Type} (ds : List (Scale × α)) : List (Scale × α) :=
  ds.mergeSort fun d e => decide (d.1.rank ≤ e.1.rank)

theorem byRank_of_pairwise {α : Type} {ds : List (Scale × α)}
    (h : (ds.map Prod.fst).Pairwise fun s t => s.rank ≤ t.rank) : byRank ds = ds :=
  List.mergeSort_of_pairwise (by simpa [List.pairwise_map] using h)

theorem perm_byRank {α : Type} (ds : List (Scale × α)) : (byRank ds).Perm ds :=
  List.mergeSort_perm _ _

theorem pairwise_byRank {α : Type} (ds : List (Scale × α)) :
    ((byRank ds).map Prod.fst).Pairwise fun s t => s.rank ≤ t.rank := by
  have h : (byRank ds).Pairwise fun d e => decide (d.1.rank ≤ e.1.rank) = true := by
    apply List.pairwise_mergeSort
    · intro d e f h1 h2
      exact decide_eq_true (Nat.le_trans (of_decide_eq_true h1) (of_decide_eq_true h2))
    · intro d e
      rw [Bool.or_eq_true, decide_eq_true_iff, decide_eq_true_iff]
      exact Nat.le_total _ _
  simpa [List.pairwise_map] using h

/-- All ways to take one element for each key; the last key varies fastest. -/
def choices {κ α : Type} : List (κ × List α) → List (List (κ × α))
  | [] => [[]]
  | (k, xs) :: rest =>
    let tails := choices rest
    xs.flatMap fun x => tails.map ((k, x) :: ·)

theorem mem_choices_cons {κ α : Type} {k : κ} {xs : List α} {rest : List (κ × List α)}
    {ch : List (κ × α)} :
    ch ∈ choices ((k, xs) :: rest) ↔ ∃ x ∈ xs, ∃ tail ∈ choices rest, ch = (k, x) :: tail := by
  simp [choices, eq_comm]

/-- One span on each of some scales. -/
abbrev Combination := List (Scale × Span)

/-- The combinations of one span from the list of each scale. -/
def combinations (ranges : List (Scale × List Span)) : List Combination :=
  choices (byRank ranges)

/-- The values that a combination leaves to choose, on each of its scales. -/
def Combination.values (ch : Combination) : List (Scale × List Int) :=
  ch.map fun d => (d.1, d.2.values)

/-- The period over one span, at fixed values on the coarser scales. -/
def periodAt (s : Scale) (r : Span) (fixed : Digits) : Except Fault AnyPeriod := do
  let start ← Point.ofDigits? ((s, r.start) :: fixed)
  let last ← Point.ofDigits? ((s, r.stop) :: fixed)
  AnyPeriod.ofBounds? (.point start) (.point last)

/-- The periods of a combination, one for each choice of values on its coarser scales. -/
def Combination.periods (ch : Combination) : Except Fault (List AnyPeriod) :=
  match byRank ch with
  | [] => .error .emptyCombination
  | (s, r) :: coarser => (choices (Combination.values coarser)).mapM (periodAt s r)

end OpeningHours
