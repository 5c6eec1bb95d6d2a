import Mathlib.Data.List.Induction
import Mathlib.Data.List.Nodup

/-!
# Requests and their answers

A log of exchanges with others: a request is asked, it is given up, or it is answered. `Sound` says
that every answer in the log is to a request that was open at that time, and `Outstanding` that a
table holds open requests only; each way of changing the table has a rule that extends the log.
-/

namespace Outpace

inductive Exchange (κ : Type) where
  | ask (k : κ)
  | lapse (k : κ)
  | answer (k : κ)

namespace Exchange
variable {κ : Type} {log : List (Exchange κ)} {k : κ}

/-- The request was asked, and since then it was neither answered nor given up. -/
def Open (log : List (Exchange κ)) (k : κ) : Prop :=
  ∃ before after, log = before ++ ask k :: after ∧ answer k ∉ after ∧ lapse k ∉ after

/-- Every answer is to a request that is open. -/
def Sound (log : List (Exchange κ)) : Prop :=
  ∀ before k after, log = before ++ answer k :: after → Open before k

def asked : Exchange κ → Option κ
  | ask k => some k
  | _ => none

def answered : Exchange κ → Option κ
  | answer k => some k
  | _ => none

theorem open_ask (log : List (Exchange κ)) (k : κ) : Open (log ++ [ask k]) k :=
  ⟨log, [], rfl, List.not_mem_nil, List.not_mem_nil⟩

theorem Open.append (H : Open log k) {later : List (Exchange κ)} (hanswer : answer k ∉ later)
    (hlapse : lapse k ∉ later) : Open (log ++ later) k := by
  obtain ⟨before, after, rfl, hna, hnl⟩ := H
  refine ⟨before, after ++ later, by simp, fun h => ?_, fun h => ?_⟩
  · exact (List.mem_append.mp h).elim hna hanswer
  · exact (List.mem_append.mp h).elim hnl hlapse

theorem Open.mem (H : Open log k) : ask k ∈ log := by
  obtain ⟨before, after, rfl, -⟩ := H
  simp

theorem sound_nil : Sound ([] : List (Exchange κ)) := by
  intro before k after h
  simp at h

theorem Sound.concat (H : Sound log) {e : Exchange κ} (h : ∀ k, e = answer k → Open log k) :
    Sound (log ++ [e]) := by
  intro before k after heq
  rcases List.eq_nil_or_concat' after with rfl | ⟨front, last, rfl⟩
  · obtain ⟨rfl, he⟩ := List.append_inj' heq rfl
    exact h k (List.cons.inj he).1
  · rw [← List.cons_append, ← List.append_assoc] at heq
    obtain ⟨hlog, -⟩ := List.append_inj' heq rfl
    exact H before k front hlog

theorem Sound.of_append {later : List (Exchange κ)} (H : Sound (log ++ later)) : Sound log := by
  intro before k after h
  refine H before k (after ++ later) ?_
  rw [h, List.append_assoc]
  rfl

/-- If no request is asked twice, none is answered twice. -/
theorem Sound.nodup_answered (H : Sound log) (hask : (log.filterMap asked).Nodup) :
    (log.filterMap answered).Nodup := by
  induction log using List.reverseRecOn with
  | nil => exact List.nodup_nil
  | append_singleton log e ih =>
    rw [List.filterMap_append] at hask ⊢
    have hold := ih H.of_append (List.nodup_append.mp hask).1
    cases e with
    | ask k | lapse k =>
      rw [show List.filterMap answered [_] = [] from rfl, List.append_nil]
      exact hold
    | answer k =>
      obtain ⟨before, after, rfl, hna, -⟩ := H log k [] rfl
      have hfresh : answer k ∉ before ++ ask k :: after := by
        intro hmem
        rcases List.mem_append.mp hmem with hmem | hmem
        · -- an earlier answer means an earlier question
          obtain ⟨front, rest, rfl⟩ := List.append_of_mem hmem
          have hearly : ask k ∈ front :=
            (H front k (rest ++ ask k :: after ++ [answer k]) (by simp)).mem
          have hleft : k ∈ (front ++ answer k :: rest).filterMap asked :=
            List.mem_filterMap.mpr ⟨_, List.mem_append_left _ hearly, rfl⟩
          have hright : k ∈ (ask k :: after).filterMap asked :=
            List.mem_filterMap.mpr ⟨_, List.mem_cons_self, rfl⟩
          have hnodup := (List.nodup_append.mp hask).1
          rw [List.filterMap_append] at hnodup
          exact (List.nodup_append.mp hnodup).2.2 k hleft k hright rfl
        · rcases List.mem_cons.mp hmem with hmem | hmem
          · cases hmem
          · exact hna hmem
      refine List.nodup_append.mpr ⟨hold, List.nodup_singleton k, fun k' hk' l hl heq => ?_⟩
      obtain ⟨e, he, hek⟩ := List.mem_filterMap.mp hk'
      obtain rfl : l = k := List.mem_singleton.mp hl
      cases e with
      | ask | lapse => cases hek
      | answer k'' =>
        cases hek
        exact hfresh (heq ▸ he)

/-! ### Tables of open requests -/

structure Outstanding (table : List κ) (log : List (Exchange κ)) : Prop where
  sound : Sound log
  held : ∀ k ∈ table, Open log k

variable {table table' : List κ}

theorem Outstanding.nil : Outstanding ([] : List κ) [] :=
  ⟨sound_nil, fun _ h => (by cases h)⟩

theorem Outstanding.ask (H : Outstanding table log) (h : ∀ l ∈ table', l = k ∨ l ∈ table) :
    Outstanding table' (log ++ [.ask k]) := by
  refine ⟨H.sound.concat fun l hl => (by cases hl), fun l hl => ?_⟩
  rcases h l hl with rfl | hl
  · exact open_ask log l
  · exact (H.held l hl).append (by simp) (by simp)

theorem Outstanding.lapses (H : Outstanding table log) {gone : List κ}
    (h : ∀ l ∈ table', l ∈ table ∧ l ∉ gone) :
    Outstanding table' (log ++ gone.map .lapse) := by
  refine ⟨?_, fun l hl => ?_⟩
  · clear h
    induction gone using List.reverseRecOn with
    | nil => simpa using H.sound
    | append_singleton gone k ih =>
      rw [List.map_append, ← List.append_assoc]
      exact ih.concat fun l hl => (by cases hl)
  · obtain ⟨hl, hgone⟩ := h l hl
    exact (H.held l hl).append (by simp) (by simpa using hgone)

theorem Outstanding.answer (H : Outstanding table log) (hk : k ∈ table)
    (h : ∀ l ∈ table', l ∈ table ∧ l ≠ k) : Outstanding table' (log ++ [.answer k]) := by
  refine ⟨H.sound.concat fun l hl => ?_, fun l hl => ?_⟩
  · cases hl
    exact H.held k hk
  · obtain ⟨hl, hne⟩ := h l hl
    exact (H.held l hl).append (by simpa using hne) (by simp)

end Exchange

end Outpace
