import Mathlib.Data.List.Basic

/-!
# Loops up to a delimiter

A loop over a buffer that runs a body at a position until it sees a stop symbol there.
`untilEnd` is the executable loop, with fuel; `UntilEnd` is what one complete run of it does, with
no fuel. A body that always advances never runs out of fuel (`UntilEnd.run`), and what the loop
returns is a complete run (`untilEnd_sound`), so proofs are inductions over `UntilEnd`.

A parser at a position is `Local` when a successful parse depends only on the bytes it passed over:
it can be repeated in any buffer that has those bytes at some position. Sequencing and the loop keep
this.
-/

namespace Outpace
variable {α ε σ τ : Type}

/-! ### The first delimiter -/

theorem findIdx?_append_cons {p : α → Bool} {s t : List α} {c : α} (hs : ∀ b ∈ s, p b = false)
    (hc : p c = true) : (s ++ c :: t).findIdx? p = some s.length := by
  induction s with
  | nil => simp [List.findIdx?_cons, hc]
  | cons b s ih =>
    have hb : p b = false := hs b List.mem_cons_self
    have := ih fun d hd => hs d (List.mem_cons_of_mem _ hd)
    simp [List.findIdx?_cons, hb, this]

/-- A list is what stands before its first delimiter, the delimiter, and the rest. -/
theorem eq_append_of_findIdx? {p : α → Bool} {l : List α} {k : Nat} (h : l.findIdx? p = some k) :
    ∃ c, p c = true ∧ l = l.take k ++ c :: l.drop (k + 1) := by
  obtain ⟨hk, hp, -⟩ := List.findIdx?_eq_some_iff_getElem.mp h
  exact ⟨l[k], hp, by rw [List.getElem_cons_drop, List.take_append_drop]⟩

/-! ### The loop -/

/-- Run `step` from position `i` until `stop` is at the position, and move past it. -/
def untilEnd [DecidableEq α] (buf : List α) (stop : α) (eof : ε) (step : σ → Nat → Except ε (σ × Nat)) :
    Nat → σ → Nat → Except ε (σ × Nat)
  | 0, _, _ => .error eof
  | fuel + 1, s, i =>
    match buf[i]? with
    | none => .error eof
    | some b =>
      if b = stop then .ok (s, i + 1)
      else match step s i with
        | .error e => .error e
        | .ok (s', j) => untilEnd buf stop eof step fuel s' j

/-- One complete run of the loop. -/
inductive UntilEnd (buf : List α) (stop : α) (step : σ → Nat → Except ε (σ × Nat)) :
    σ → Nat → σ → Nat → Prop where
  | stop {s i} (h : buf[i]? = some stop) : UntilEnd buf stop step s i s (i + 1)
  | step {s i b s' j s'' n} (h : buf[i]? = some b) (hb : b ≠ stop) (hs : step s i = .ok (s', j))
    (rest : UntilEnd buf stop step s' j s'' n) : UntilEnd buf stop step s i s'' n

/-- The body of a loop moves forward whenever it succeeds. -/
def Advances (step : σ → Nat → Except ε (σ × Nat)) : Prop :=
  ∀ ⦃s i s' j⦄, step s i = .ok (s', j) → i < j

variable {buf : List α} {stop : α} {eof : ε} {step : σ → Nat → Except ε (σ × Nat)}

theorem untilEnd_sound [DecidableEq α] {fuel s i s' n}
    (h : untilEnd buf stop eof step fuel s i = .ok (s', n)) :
    UntilEnd buf stop step s i s' n := by
  induction fuel generalizing s i with
  | zero => cases h
  | succ fuel ih =>
    rw [untilEnd] at h
    split at h
    · cases h
    · next b hb =>
      split at h
      · next hstop =>
        cases h
        exact .stop (hstop ▸ hb)
      · next hne =>
        split at h
        · cases h
        · next s₁ j hs => exact .step hb hne hs (ih h)

/-- A loop whose body advances needs no more fuel than there are bytes left. -/
theorem UntilEnd.run [DecidableEq α] {s i s' n} (h : UntilEnd buf stop step s i s' n) (eof : ε)
    (hadv : Advances step) (fuel : Nat) (hfuel : buf.length ≤ fuel + i) :
    untilEnd buf stop eof step fuel s i = .ok (s', n) := by
  induction h generalizing fuel with
  | stop h =>
    obtain ⟨hi, -⟩ := List.getElem?_eq_some_iff.mp h
    obtain ⟨fuel, rfl⟩ := Nat.exists_eq_succ_of_ne_zero (show fuel ≠ 0 by omega)
    simp [untilEnd, h]
  | step h hb hs rest ih =>
    obtain ⟨hi, -⟩ := List.getElem?_eq_some_iff.mp h
    obtain ⟨fuel, rfl⟩ := Nat.exists_eq_succ_of_ne_zero (show fuel ≠ 0 by omega)
    have hj := hadv hs
    simp only [untilEnd, h, if_neg hb, hs]
    exact ih fuel (by omega)

/-- What the body preserves holds where the loop stops. -/
theorem UntilEnd.invariant {P : σ → Nat → Prop}
    (hP : ∀ {s i s' j}, P s i → step s i = .ok (s', j) → P s' j) {s i s' n}
    (h : UntilEnd buf stop step s i s' n) (hs : P s i) :
    ∃ k, n = k + 1 ∧ buf[k]? = some stop ∧ P s' k := by
  induction h with
  | stop h => exact ⟨_, rfl, h, hs⟩
  | step _ _ hstep _ ih => exact ih (hP hs hstep)

/-- A run of one loop is a run of another when the second body can follow the first. -/
theorem UntilEnd.simulate (step' : τ → Nat → Except ε (τ × Nat)) {R : σ → τ → Prop}
    (hR : ∀ {s t i s' j}, R s t → step s i = .ok (s', j) → ∃ t', step' t i = .ok (t', j) ∧ R s' t')
    {s i s' n} (h : UntilEnd buf stop step s i s' n) {t : τ} (ht : R s t) :
    ∃ t', UntilEnd buf stop step' t i t' n ∧ R s' t' := by
  induction h generalizing t with
  | stop h => exact ⟨t, .stop h, ht⟩
  | step h hb hs _ ih =>
    obtain ⟨t₁, hs₁, hR₁⟩ := hR ht hs
    obtain ⟨t', hrun, hR'⟩ := ih hR₁
    exact ⟨t', .step h hb hs₁ hrun, hR'⟩

/-! ### Parsers that depend only on the bytes they pass over -/

variable {β γ : Type} {good : List α → Prop} {f : List α → Nat → Except ε (β × Nat)}

/-- `f` succeeds at `i'` in `buf'` as it did at `i` in `buf`, if the bytes it passed over in `buf`
stand at `i'` in `buf'`. `good` is what the parser asks of a buffer as a whole. -/
def Local (good : List α → Prop) (f : List α → Nat → Except ε (β × Nat)) : Prop :=
  ∀ ⦃buf i r j⦄, f buf i = .ok (r, j) → ∃ e, j = i + e.length ∧ buf.drop i = e ++ buf.drop j ∧
    ∀ ⦃buf' i' rest⦄, good buf' → buf'.drop i' = e ++ rest → f buf' i' = .ok (r, i' + e.length)

/-- One parser after another. -/
def andThen (f : List α → Nat → Except ε (β × Nat)) (g : β → List α → Nat → Except ε (γ × Nat))
    (buf : List α) (i : Nat) : Except ε (γ × Nat) :=
  match f buf i with
  | .error e => .error e
  | .ok (r, j) => g r buf j

theorem drop_of_drop_append {buf e rest : List α} {i : Nat} (h : buf.drop i = e ++ rest) :
    buf.drop (i + e.length) = rest := by
  rw [← List.drop_drop, h, List.drop_left]

theorem Local.andThen {g : β → List α → Nat → Except ε (γ × Nat)} (hf : Local good f)
    (hg : ∀ r, Local good (g r)) : Local good (andThen f g) := by
  intro buf i r j h
  unfold Outpace.andThen at h
  split at h
  · cases h
  · next q k hq =>
    obtain ⟨e₁, hk, hd₁, hf'⟩ := hf hq
    obtain ⟨e₂, hj, hd₂, hg'⟩ := hg q h
    refine ⟨e₁ ++ e₂, by simp; omega, by rw [hd₁, hd₂, List.append_assoc], ?_⟩
    intro buf' i' rest hgood hd'
    have hd' : buf'.drop i' = e₁ ++ (e₂ ++ rest) := by rw [hd', List.append_assoc]
    simp only [Outpace.andThen, hf' hgood hd', hg' hgood (drop_of_drop_append hd')]
    simp [Nat.add_assoc]

theorem Local.map (hf : Local good f) (g : β → γ) :
    Local good (Outpace.andThen f fun r _ j => .ok (g r, j)) := by
  refine hf.andThen fun r buf i q j h => ?_
  cases h
  exact ⟨[], rfl, rfl, fun _ _ _ _ _ => rfl⟩

theorem UntilEnd.local (step : List α → σ → Nat → Except ε (σ × Nat))
    (hstep : ∀ s, Local good fun buf => step buf s) {s i s' n}
    (h : UntilEnd buf stop (step buf) s i s' n) :
    ∃ e, e ≠ [] ∧ n = i + e.length ∧ buf.drop i = e ++ buf.drop n ∧
      ∀ ⦃buf' i' rest⦄, good buf' → buf'.drop i' = e ++ rest →
        UntilEnd buf' stop (step buf') s i' s' (i' + e.length) := by
  induction h with
  | stop h =>
    refine ⟨[stop], by simp, rfl, ?_, fun _ _ _ _ hd => .stop ?_⟩
    · obtain ⟨hi, hget⟩ := List.getElem?_eq_some_iff.mp h
      rw [← List.getElem_cons_drop hi, hget]
      rfl
    · rw [← List.head?_drop, hd]
      rfl
  | @step s i b s₁ j s' n hb hne hs _ ih =>
    obtain ⟨e₁, hj, hd₁, hstep'⟩ := hstep s hs
    obtain ⟨e₂, hne₂, hn, hd₂, hrun⟩ := ih
    have hne' : e₁ ++ e₂ ≠ [] := by simp [hne₂]
    have hbuf : buf.drop i = e₁ ++ e₂ ++ buf.drop n := by rw [hd₁, hd₂, List.append_assoc]
    have hhead : (e₁ ++ e₂).head? = some b := by
      rw [← hb, ← List.head?_drop, hbuf, List.head?_append_of_ne_nil _ hne']
    refine ⟨e₁ ++ e₂, hne', by simp; omega, hbuf, ?_⟩
    intro buf' i' rest hgood hd'
    have hd₁' : buf'.drop i' = e₁ ++ (e₂ ++ rest) := by rw [hd', List.append_assoc]
    rw [List.length_append, ← Nat.add_assoc]
    refine .step (b := b) ?_ hne (hstep' hgood hd₁') (hrun hgood (drop_of_drop_append hd₁'))
    rw [← List.head?_drop, hd', List.head?_append_of_ne_nil _ hne', hhead]

end Outpace
