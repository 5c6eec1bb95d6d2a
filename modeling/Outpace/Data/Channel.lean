import Mathlib.Data.List.Basic

/-!
# A bounded channel

A queue with a number of permits. A sender takes a permit, and publishes its message some time
later or gives the permit back; a receive takes the oldest message and frees its permit. The permits
that are free, those that senders hold and the messages in the queue always make up the capacity.
-/

namespace Outpace

structure Channel (α : Type) where
  capacity : Nat
  permits : Nat
  queue : List α

namespace Channel
variable {α : Type} {c c' : Channel α} {held : Nat} {a : α}

def new (capacity : Nat) : Channel α := ⟨capacity, capacity, []⟩

def reserve (c : Channel α) : Option (Channel α) :=
  if 0 < c.permits then some { c with permits := c.permits - 1 } else none

/-- Queue a message for which a permit is held. -/
def publish (c : Channel α) (a : α) : Channel α := { c with queue := c.queue ++ [a] }

/-- Give back a permit. -/
def release (c : Channel α) : Channel α := { c with permits := c.permits + 1 }

def tryRecv (c : Channel α) : Option (α × Channel α) :=
  match c.queue with
  | [] => none
  | a :: queue => some (a, { c with queue := queue, permits := c.permits + 1 })

/-- No message is in the channel, and none is to come for a permit. -/
def drained (c : Channel α) : Bool := c.permits == c.capacity

/-- Senders hold so many permits. -/
def Balanced (held : Nat) (c : Channel α) : Prop := c.permits + held + c.queue.length = c.capacity

theorem balanced_new (capacity : Nat) : (new capacity : Channel α).Balanced 0 := rfl

theorem Balanced.length_le (h : c.Balanced held) : c.queue.length ≤ c.capacity := by
  unfold Balanced at h
  omega

theorem Balanced.queue_of_drained (h : c.Balanced held) (hd : c.drained = true) : c.queue = [] := by
  have hd : c.permits = c.capacity := by simpa [drained] using hd
  unfold Balanced at h
  exact List.length_eq_zero_iff.mp (by omega)

theorem reserve_eq_some (h : c.reserve = some c') :
    c'.capacity = c.capacity ∧ c'.queue = c.queue ∧ c'.permits + 1 = c.permits := by
  unfold reserve at h
  split at h
  · cases h
    exact ⟨rfl, rfl, by dsimp only; omega⟩
  · cases h

theorem tryRecv_eq_some (h : c.tryRecv = some (a, c')) :
    c'.capacity = c.capacity ∧ c.queue = a :: c'.queue ∧ c'.permits = c.permits + 1 := by
  unfold tryRecv at h
  split at h
  · cases h
  · next heq =>
    cases h
    exact ⟨rfl, heq, rfl⟩

theorem Balanced.reserve (h : c.Balanced held) (hc : c.reserve = some c') :
    c'.Balanced (held + 1) := by
  obtain ⟨hcap, hqueue, hpermits⟩ := reserve_eq_some hc
  unfold Balanced at h ⊢
  rw [hcap, hqueue]
  omega

theorem Balanced.publish (h : c.Balanced (held + 1)) (a : α) : (c.publish a).Balanced held := by
  unfold Balanced at h ⊢
  simp only [Channel.publish, List.length_append, List.length_singleton]
  omega

theorem Balanced.release (h : c.Balanced (held + 1)) : c.release.Balanced held := by
  unfold Balanced at h ⊢
  simp only [Channel.release]
  omega

theorem Balanced.tryRecv (h : c.Balanced held) (hc : c.tryRecv = some (a, c')) :
    c'.Balanced held := by
  obtain ⟨hcap, hqueue, hpermits⟩ := tryRecv_eq_some hc
  unfold Balanced at h ⊢
  rw [hqueue, List.length_cons] at h
  rw [hcap, hpermits]
  omega

end Channel

end Outpace
