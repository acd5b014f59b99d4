import Mathlib.Data.Nat.ModEq
import Mathlib.Data.List.Basic
import Mathlib.Tactic.Ring

/-!
# Positions on a ring

A ring of `c` slots holds the last `c` of a growing sequence: the entry at
position `n` stands in slot `n % c`.  A reader knows its position only as a
slot.  What it makes of the slot of the writer is the number of entries
behind modulo `c`, so that a reader that has fallen `c` entries behind takes
itself for one that has read everything.  Seen from the reader, the entries
that it will still be given form a queue of at most `c - 1`, and an entry too
many empties the queue.
-/

namespace EsNotebook.Ring

variable {c b n p : ℕ}

/-! ## Slots -/

/-- The slot after the slot `i`. -/
def advance (c i : ℕ) : ℕ := if i = c - 1 then 0 else i + 1

theorem advance_mod (hc : 0 < c) : advance c (n % c) = (n + 1) % c := by
  have hlt := Nat.mod_lt n hc
  have hsucc : (n + 1) % c = (n % c + 1) % c := by rw [Nat.mod_add_mod]
  unfold advance
  split
  · next h =>
      have hself : n % c + 1 = c := by omega
      rw [hsucc, hself, Nat.mod_self]
  · next h => rw [hsucc, Nat.mod_eq_of_lt (by omega : n % c + 1 < c)]

theorem advance_lt (hc : 0 < c) {i : ℕ} (hi : i < c) : advance c i < c := by
  unfold advance
  split <;> omega

/-- How far the slot `head` is ahead of the slot `tail`. -/
def lag (c head tail : ℕ) : ℕ := (head + c - tail) % c

theorem lag_lt (hc : 0 < c) (head tail : ℕ) : lag c head tail < c := Nat.mod_lt _ hc

/-- The position that a reader in the slot `tail` takes itself to have. -/
def position (c n tail : ℕ) : ℕ := n - lag c (n % c) tail

/-- Entries less than `c` apart stand in different slots. -/
theorem mod_ne (hbn : b < n) (hn : n < b + c) : b % c ≠ n % c := by
  intro h
  have hdvd : c ∣ n - b := (Nat.modEq_iff_dvd' hbn.le).mp h
  exact absurd (Nat.le_of_dvd (by omega) hdvd) (by omega)

theorem lag_eq_ite {head tail : ℕ} (hhead : head < c) (htail : tail < c) :
    lag c head tail = if head < tail then head + c - tail else head - tail := by
  unfold lag
  split
  · exact Nat.mod_eq_of_lt (by omega)
  · have heq : head + c - tail = (head - tail) + c := by omega
    rw [heq, Nat.add_mod_right]
    exact Nat.mod_eq_of_lt (by omega)

theorem lag_eq_zero_iff {head tail : ℕ} (hhead : head < c) (htail : tail < c) :
    lag c head tail = 0 ↔ tail = head := by
  rw [lag_eq_ite hhead htail]
  split <;> omega

/-- The slot of a reader, as the writer's position and the lag. -/
theorem position_mod {tail : ℕ} (htail : tail < c) (hle : lag c (n % c) tail ≤ n) :
    position c n tail % c = tail := by
  have hc : 0 < c := Nat.zero_lt_of_lt htail
  have hhead := Nat.mod_lt n hc
  have hdiv := Nat.div_add_mod n c
  rw [lag_eq_ite hhead htail] at hle
  rw [position, lag_eq_ite hhead htail]
  split at hle
  · next hlt =>
      obtain ⟨q, hq⟩ : ∃ q, n / c = q + 1 := by
        refine Nat.exists_eq_succ_of_ne_zero fun hzero ↦ ?_
        rw [hzero, Nat.mul_zero] at hdiv
        omega
      have heq : n - (n % c + c - tail) = tail + c * q := by
        rw [hq, Nat.mul_succ] at hdiv
        omega
      rw [if_pos hlt, heq, Nat.add_mul_mod_self_left, Nat.mod_eq_of_lt htail]
  · next hge =>
      have heq : n - (n % c - tail) = tail + c * (n / c) := by omega
      rw [if_neg hge, heq, Nat.add_mul_mod_self_left, Nat.mod_eq_of_lt htail]

theorem lag_advance {head tail : ℕ} (hhead : head < c) (htail : tail < c)
    (hne : lag c head tail ≠ 0) : lag c head (advance c tail) = lag c head tail - 1 := by
  have hne' : tail ≠ head := fun heq ↦ hne ((lag_eq_zero_iff hhead htail).mpr heq)
  have hadvance := advance_lt (Nat.zero_lt_of_lt hhead) htail
  rw [lag_eq_ite hhead hadvance, lag_eq_ite hhead htail]
  unfold advance
  split_ifs <;> omega

/-- One more entry: a reader that was `c - 1` behind has then no lag at all. -/
theorem lag_succ {head tail : ℕ} (hhead : head < c) (htail : tail < c) :
    lag c (advance c head) tail
      = if lag c head tail = c - 1 then 0 else lag c head tail + 1 := by
  have hadvance := advance_lt (Nat.zero_lt_of_lt hhead) hhead
  rw [lag_eq_ite hadvance htail, lag_eq_ite hhead htail]
  unfold advance
  split_ifs <;> omega

/-! ## Queues that are emptied when they overflow -/

variable {α : Type*} {queue sent log : List α} {x : α}

/-- A queue for at most `c - 1` entries, which one more empties. -/
def push (c : ℕ) (queue : List α) (x : α) : List α :=
  if queue.length = c - 1 then [] else queue ++ [x]

theorem push_of_length_ne (h : queue.length ≠ c - 1) : push c queue x = queue ++ [x] := if_neg h

/-- What has been read and what is queued is a selection of the sequence, in
its order. -/
theorem sublist_push (h : (sent ++ queue).Sublist log) :
    (sent ++ push c queue x).Sublist (log ++ [x]) := by
  unfold push
  split
  · have hsent : sent.Sublist log := (List.sublist_append_left sent queue).trans h
    simpa using hsent.trans (List.sublist_append_left log [x])
  · rw [← List.append_assoc]
    exact h.append (List.Sublist.refl [x])

end EsNotebook.Ring
