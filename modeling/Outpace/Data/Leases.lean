import Mathlib.Logic.Function.Basic
import Mathlib.Data.List.Basic

/-!
# Leases

A coordinator leases keys to workers. A lease is a token with the key and a fresh stamp; the
coordinator notes the owner of each key and the token of each worker, the worker holds the token
while it works and turns it into a report, and the coordinator accepts a report only if its token is
the worker's current one. `Leases.Inv` is kept by every operation, so a key is never worked on by
two workers, whatever the order of grants, reports, losses and expiries.
-/

namespace Outpace

universe u v w

/-- The owner of each key, the token of each worker, the token it still holds, and the reports that
were not looked at yet. -/
@[ext] structure Leases (κ : Type u) (ω : Type v) (τ : Type w) where
  owner : κ → Option ω
  job : ω → Option τ
  held : ω → Option τ
  reports : List (ω × τ)
  stamp : Nat

namespace Leases

variable {κ : Type u} {ω : Type v} {τ : Type w} (key : τ → κ) (stampOf : τ → Nat)

structure Inv (l : Leases κ ω τ) : Prop where
  owned : ∀ {k w}, l.owner k = some w → ∃ j, l.job w = some j ∧ key j = k
  leased : ∀ {w j}, l.job w = some j → l.owner (key j) = some w
  held : ∀ {w j}, l.held w = some j → l.job w = some j
  reported : ∀ {w j}, (w, j) ∈ l.reports → l.held w ≠ some j
  job_stamp : ∀ {w j}, l.job w = some j → stampOf j ≤ l.stamp
  report_stamp : ∀ {w j}, (w, j) ∈ l.reports → stampOf j ≤ l.stamp

variable {key stampOf} {l : Leases κ ω τ}

/-- Forget the oldest report. -/
def discard (l : Leases κ ω τ) : Leases κ ω τ := { l with reports := l.reports.tail }

theorem Inv.tick (H : Inv key stampOf l) : Inv key stampOf { l with stamp := l.stamp + 1 } :=
  { H with
    job_stamp := fun h => Nat.le_succ_of_le (H.job_stamp h)
    report_stamp := fun h => Nat.le_succ_of_le (H.report_stamp h) }

theorem Inv.discard (H : Inv key stampOf l) : Inv key stampOf l.discard :=
  { H with
    reported := fun hm => H.reported (List.mem_of_mem_tail hm)
    report_stamp := fun hm => H.report_stamp (List.mem_of_mem_tail hm) }

variable [DecidableEq ω]

/-- A worker loses its token. -/
def lose (l : Leases κ ω τ) (w : ω) : Leases κ ω τ :=
  { l with held := Function.update l.held w none }

/-- A worker turns its token into a report. -/
def report (l : Leases κ ω τ) (w : ω) (j : τ) : Leases κ ω τ :=
  { l.lose w with reports := l.reports ++ [(w, j)] }

theorem Inv.lose (H : Inv key stampOf l) (w : ω) : Inv key stampOf (l.lose w) := by
  have hheld : ∀ {i j}, (l.lose w).held i = some j → l.held i = some j := by
    intro i j h
    by_cases hi : i = w
    · subst hi
      simp [Leases.lose] at h
    · simpa [Leases.lose, hi] using h
  exact { H with
    held := fun h => H.held (hheld h)
    reported := fun hm h => H.reported hm (hheld h) }

theorem Inv.report (H : Inv key stampOf l) {w : ω} {j : τ} (h : l.held w = some j) :
    Inv key stampOf (l.report w j) := by
  have L := H.lose w
  refine { L with
    reported := fun {i j'} hm hheld => ?_
    report_stamp := fun {i j'} hm => ?_ }
  · rcases List.mem_append.mp hm with hm | hm
    · exact L.reported hm hheld
    · rw [List.mem_singleton] at hm
      cases hm
      simp [Leases.report, Leases.lose] at hheld
  · rcases List.mem_append.mp hm with hm | hm
    · exact H.report_stamp hm
    · rw [List.mem_singleton] at hm
      cases hm
      exact H.job_stamp (H.held h)

variable [DecidableEq κ]

/-- Lease the key of a token to a worker. -/
def grant (l : Leases κ ω τ) (key : τ → κ) (j : τ) (w : ω) : Leases κ ω τ :=
  { l with
    owner := Function.update l.owner (key j) (some w)
    job := Function.update l.job w (some j)
    held := Function.update l.held w (some j)
    stamp := l.stamp + 1 }

/-- The lease of a worker ends. -/
def finish (l : Leases κ ω τ) (key : τ → κ) (w : ω) (j : τ) : Leases κ ω τ :=
  { l with
    owner := Function.update l.owner (key j) none
    job := Function.update l.job w none }

theorem Inv.grant (H : Inv key stampOf l) {j : τ} {w : ω} (hfree : l.owner (key j) = none)
    (hidle : l.job w = none) (hstamp : stampOf j = l.stamp + 1) :
    Inv key stampOf (l.grant key j w) := by
  constructor
  · intro k i h
    by_cases hk : k = key j
    · subst hk
      obtain rfl : w = i := by simpa [Leases.grant] using h
      exact ⟨j, by simp [Leases.grant], rfl⟩
    · obtain ⟨j', hj', hkey⟩ := H.owned (by simpa [Leases.grant, hk] using h)
      have hi : i ≠ w := by rintro rfl; rw [hidle] at hj'; cases hj'
      exact ⟨j', by simpa [Leases.grant, hi] using hj', hkey⟩
  · intro i j' h
    by_cases hi : i = w
    · subst hi
      obtain rfl : j = j' := by simpa [Leases.grant] using h
      simp [Leases.grant]
    · have hold := H.leased (by simpa [Leases.grant, hi] using h)
      have hk : key j' ≠ key j := by rintro heq; rw [heq, hfree] at hold; cases hold
      simpa [Leases.grant, hk] using hold
  · intro i j' h
    by_cases hi : i = w
    · subst hi
      simpa [Leases.grant] using h
    · simpa [Leases.grant, hi] using H.held (by simpa [Leases.grant, hi] using h)
  · intro i j' hm h
    -- the token is fresh, so no report has it
    by_cases hi : i = w
    · subst hi
      obtain rfl : j = j' := by simpa [Leases.grant] using h
      have := H.report_stamp hm
      omega
    · exact H.reported hm (by simpa [Leases.grant, hi] using h)
  · intro i j' h
    by_cases hi : i = w
    · subst hi
      obtain rfl : j = j' := by simpa [Leases.grant] using h
      exact Nat.le_of_eq hstamp
    · exact Nat.le_succ_of_le (H.job_stamp (by simpa [Leases.grant, hi] using h))
  · exact fun hm => Nat.le_succ_of_le (H.report_stamp hm)

/-- A lease may end once the worker does not hold the token any more. -/
theorem Inv.finish (H : Inv key stampOf l) {w : ω} {j : τ} (h : l.job w = some j)
    (hfree : l.held w = none) : Inv key stampOf (l.finish key w j) := by
  have hjob : ∀ {i j'}, (l.finish key w j).job i = some j' → i ≠ w ∧ l.job i = some j' := by
    intro i j' hi
    by_cases hw : i = w
    · subst hw
      simp [Leases.finish] at hi
    · exact ⟨hw, by simpa [Leases.finish, hw] using hi⟩
  have hheld : ∀ {i j'}, l.held i = some j' → i ≠ w := by
    rintro i j' hi rfl
    rw [hfree] at hi
    cases hi
  refine { H with
    owned := fun {k i} hk => ?_
    leased := fun {i j'} hi => ?_
    held := fun {i j'} hi => ?_
    job_stamp := fun hi => H.job_stamp (hjob hi).2 }
  · by_cases hkey : k = key j
    · subst hkey
      simp [Leases.finish] at hk
    · obtain ⟨j', hj', rfl⟩ := H.owned (by simpa [Leases.finish, hkey] using hk)
      have hi : i ≠ w := by
        rintro rfl
        rw [h] at hj'
        exact hkey (by rw [Option.some.inj hj'])
      exact ⟨j', by simpa [Leases.finish, hi] using hj', rfl⟩
  · obtain ⟨hw, hi⟩ := hjob hi
    have hold := H.leased hi
    have hkey : key j' ≠ key j := by
      intro heq
      rw [heq, H.leased h] at hold
      exact hw (Option.some.inj hold).symm
    simpa [Leases.finish, hkey] using hold
  · simpa [Leases.finish, hheld hi] using H.held hi

end Leases

end Outpace
