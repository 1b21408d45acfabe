import Mathlib.Data.List.Chain
import OpeningHours.Proofs.Period.Merging

/-!
# Merging settles a list at once

Nothing is asked of the periods here: they may wrap, never close, repeat or start together. When the
scan closes the present period it has looked at two things, the present period and the next start
(`Parts`), and the period that is read next keeps that start whatever it absorbs. So every two
neighbours of the result stand as they did when the first one was closed, and the starts are some
of those of the sorted list, in their order. A list of that shape is settled, and the settled lists
are those that merging returns unchanged (`merge_eq_self_iff`).
-/

namespace OpeningHours.Period

variable {c : Cycle} {p q r : Period c} {ps : List (Period c)}

/-- The second period starts neither inside the first one nor right after it. -/
structure Parts (p q : Period c) : Prop where
  outside : ¬ p.covers q.start = true
  notNext : p.last.increment ≠ q.start

theorem Parts.congr_start (h : Parts p q) (hs : r.start = q.start) : Parts p r where
  outside := hs ▸ h.outside
  notNext := hs ▸ h.notNext

theorem absorb_cons_of_parts (h : Parts p q) : absorb p (q :: ps) = p :: absorb q ps := by
  rw [absorb, if_neg h.outside, if_neg h.notNext]

/-- Sorted by starts, and no two neighbours can be made one. -/
structure Settled (ps : List (Period c)) : Prop where
  sorted : ps.Pairwise fun p q => p.start ≤ q.start
  parted : ps.IsChain Parts

/-- The period read first keeps its start. -/
theorem exists_absorb_eq_cons (p : Period c) (ps : List (Period c)) :
    ∃ q qs, absorb p ps = q :: qs ∧ q.start = p.start := by
  fun_induction absorb p ps with
  | case1 p => exact ⟨p, [], rfl, rfl⟩
  | case2 p q ps _ ih => exact ih
  | case3 p q ps _ _ ih => exact ih
  | case4 p q ps _ _ ih => exact ⟨p, absorb q ps, rfl, rfl⟩

theorem isChain_parts_absorb (p : Period c) (ps : List (Period c)) :
    (absorb p ps).IsChain Parts := by
  fun_induction absorb p ps with
  | case1 p => exact List.isChain_singleton p
  | case2 p q ps _ ih => exact ih
  | case3 p q ps _ _ ih => exact ih
  | case4 p q ps hout hnext ih =>
    obtain ⟨r, rs, hr, hs⟩ := exists_absorb_eq_cons q ps
    rw [hr] at ih ⊢
    exact List.isChain_cons_cons.2 ⟨Parts.congr_start ⟨hout, hnext⟩ hs, ih⟩

/-- The starts that remain are some of those that were read, in their order. -/
theorem sublist_starts_absorb (p : Period c) (ps : List (Period c)) :
    ((absorb p ps).map start).Sublist ((p :: ps).map start) := by
  fun_induction absorb p ps with
  | case1 p => exact List.Sublist.refl _
  | case2 p q ps _ ih => exact ih.trans ((List.sublist_cons_self q.start _).cons_cons p.start)
  | case3 p q ps _ _ ih => exact ih.trans ((List.sublist_cons_self q.start _).cons_cons p.start)
  | case4 p q ps _ _ ih => exact ih.cons_cons p.start

theorem absorb_of_isChain (h : (p :: ps).IsChain Parts) : absorb p ps = p :: ps := by
  induction ps generalizing p with
  | nil => rfl
  | cons q ps ih =>
    obtain ⟨hpq, hps⟩ := List.isChain_cons_cons.1 h
    rw [absorb_cons_of_parts hpq, ih hps]

/-- Periods in order of their starts are left where they are, those that start together too. -/
theorem sortByStart_of_sorted (h : ps.Pairwise fun p q => p.start ≤ q.start) :
    sortByStart ps = ps :=
  List.mergeSort_of_pairwise (by simpa using h)

theorem settled_merge (ps : List (Period c)) : Settled (merge ps) := by
  rw [merge]
  cases hs : sortByStart ps with
  | nil => exact ⟨.nil, .nil⟩
  | cons p rest =>
    have hsorted : ((p :: rest).map start).Pairwise (· ≤ ·) :=
      List.pairwise_map.2 (hs ▸ pairwise_sortByStart ps)
    refine ⟨?_, isChain_parts_absorb p rest⟩
    exact List.pairwise_map.1 (hsorted.sublist (sublist_starts_absorb p rest))

/-- Merging leaves the settled lists as they are, and no others. -/
theorem merge_eq_self_iff : merge ps = ps ↔ Settled ps := by
  constructor
  · intro h
    exact h ▸ settled_merge ps
  · intro h
    rw [merge, sortByStart_of_sorted h.sorted]
    cases ps with
    | nil => rfl
    | cons p rest => exact absorb_of_isChain h.parted

/-- Whatever periods are merged, merging them a second time changes nothing, and their starts are in
order. The lists that merging leaves as they are are the sorted ones in which no period starts
inside the one before it or right after it. -/
theorem merge_settles (ps : List (Period c)) :
    merge (merge ps) = merge ps ∧
    ((merge ps).Pairwise fun p q => p.start ≤ q.start) ∧
    (merge ps = ps ↔ Settled ps) := by
  have h := settled_merge ps
  exact ⟨merge_eq_self_iff.2 h, h.sorted, merge_eq_self_iff⟩

end OpeningHours.Period
