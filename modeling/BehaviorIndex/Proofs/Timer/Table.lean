import BehaviorIndex.Timer.Clock

/-!
# Slots and sleepers

What each operation on the timer table does to the slot of each key, and which timers sleep on a
clock afterwards.
-/

namespace BehaviorIndex.Timer

variable {κ α : Type} [DecidableEq κ]

namespace Table

theorem lookup_dropKey (slots : List (κ × Generation)) (key k : κ) :
    (dropKey slots key).lookup k = if k = key then none else slots.lookup k := by
  induction slots with
  | nil => simp [dropKey]
  | cons slot slots ih =>
    obtain ⟨j, g⟩ := slot
    rw [dropKey] at ih ⊢
    by_cases hj : j = key
    · subst hj
      rw [List.filter_cons_of_neg (by simp), ih]
      by_cases hk : k = j
      · rw [if_pos hk, if_pos hk]
      · rw [if_neg hk, if_neg hk, List.lookup_cons, beq_false_of_ne hk]
    · rw [List.filter_cons_of_pos (by simpa using hj), List.lookup_cons, List.lookup_cons, ih]
      by_cases hk : k = j
      · subst hk
        simp [hj]
      · rw [beq_false_of_ne hk]

theorem pending?_schedule (t : Table κ) (key k : κ) :
    (t.schedule key).pending? k = if k = key then some (t.last + 1) else t.pending? k := by
  unfold pending? schedule
  rw [List.lookup_append, lookup_dropKey]
  by_cases hk : k = key
  · subst hk
    simp
  · simp [hk, List.lookup_cons, beq_false_of_ne hk]

theorem pending?_cancel (t : Table κ) (key k : κ) :
    (t.cancel key).pending? k = if k = key then none else t.pending? k :=
  lookup_dropKey t.slots key k

theorem pending?_of_claim? {t t' : Table κ} {key : κ} {generation : Generation}
    (h : t.claim? key generation = some t') : t.pending? key = some generation := by
  unfold claim? at h
  split at h
  · next hpending => exact hpending
  · cases h

/-- A claim that succeeds empties the slot. -/
theorem eq_cancel_of_claim? {t t' : Table κ} {key : κ} {generation : Generation}
    (h : t.claim? key generation = some t') : t' = t.cancel key := by
  unfold claim? at h
  split at h
  · exact (Option.some_inj.mp h).symm
  · cases h

theorem pending?_of_slots_eq_nil {t : Table κ} (h : t.slots = []) (key : κ) :
    t.pending? key = none := by
  rw [pending?, h, List.lookup_nil]

end Table

namespace Clock

/-- No timer sleeps and no slot is taken. -/
structure Idle (c : Clock κ α) : Prop where
  slots : c.table.slots = []
  sleepers : c.sleepers = []

theorem table_schedule (c : Clock κ α) (key : κ) (delay : Nat) (action : α) :
    (c.schedule key delay action).table = c.table.schedule key := rfl

theorem table_cancel (c : Clock κ α) (key : κ) : (c.cancel key).table = c.table.cancel key := rfl

theorem mem_sleepers_cancel {c : Clock κ α} {key : κ} {t : Sleeper κ α}
    (h : t ∈ (c.cancel key).sleepers) : t ∈ c.sleepers :=
  (List.mem_filter.mp h).1

theorem mem_sleepers_schedule {c : Clock κ α} {key : κ} {delay : Nat} {action : α} {t : Sleeper κ α}
    (h : t ∈ (c.schedule key delay action).sleepers) :
    t ∈ c.sleepers ∨ t.key = key ∧ t.action = action := by
  rcases List.mem_append.mp h with h | h
  · exact .inl (mem_sleepers_cancel h)
  · obtain rfl := List.mem_singleton.mp h
    exact .inr ⟨rfl, rfl⟩

end Clock

end BehaviorIndex.Timer
