import EsNotebook.Lib.Lts
import Mathlib.Data.List.Basic

/-!
# Blocks and reliable pipes

`block n xs i` is the `i`-th block of a list that is read `n` items at a
time.  A pipe carries a source list to its output in order: items wait in the
source, are in transit, or have come out.  Both are about lists of any type.
-/

namespace EsNotebook

variable {α : Type*}

/-! ## Reading in blocks -/

/-- The `i`-th block of `n` items; the last ones are short or empty. -/
def block (n : ℕ) (xs : List α) (i : ℕ) : List α :=
  (xs.drop (n * i)).take n

@[simp] theorem block_length (n : ℕ) (xs : List α) (i : ℕ) :
    (block n xs i).length = min n (xs.length - n * i) := by
  simp [block]

/-- The first `k` blocks in order are the prefix of `n * k` items. -/
theorem flatten_map_block (n : ℕ) (xs : List α) (k : ℕ) :
    ((List.range k).map (block n xs)).flatten = xs.take (n * k) := by
  induction k with
  | zero => simp
  | succ k ih =>
      rw [List.range_succ, List.map_append, List.flatten_append, ih]
      simp only [List.map_cons, List.map_nil, List.flatten_cons, List.flatten_nil,
        List.append_nil, block]
      rw [Nat.mul_succ, List.take_add]

/-- A block is short exactly when it is the last one that the length allows. -/
theorem block_length_lt_iff {n : ℕ} (hn : 0 < n) {xs : List α} {i : ℕ}
    (hi : i ≤ xs.length / n) : (block n xs i).length < n ↔ i = xs.length / n := by
  have hfloor : n * (xs.length / n) ≤ xs.length := Nat.mul_div_le _ _
  have hceil : xs.length < n * (xs.length / n + 1) := Nat.lt_mul_div_succ _ hn
  rw [block_length]
  constructor
  · intro hlt
    by_contra hne
    have hmul : n * (i + 1) ≤ n * (xs.length / n) := Nat.mul_le_mul_left n (by omega)
    rw [Nat.mul_succ] at hmul
    omega
  · rintro rfl
    rw [Nat.mul_succ] at hceil
    omega

theorem flatten_map_block_all {n : ℕ} (hn : 0 < n) (xs : List α) :
    ((List.range (xs.length / n + 1)).map (block n xs)).flatten = xs := by
  rw [flatten_map_block]
  exact List.take_of_length_le (Nat.le_of_lt (Nat.lt_mul_div_succ _ hn))

/-! ## Pipes -/

/-- What has not been read, what is in transit and what has come out. -/
structure Pipe (α : Type*) where
  source : List α
  transit : List α
  out : List α

/-- `push n` reads up to `n` items of the source, `pull n` delivers up to `n`
items in transit. -/
inductive PipeEvent where
  | push (n : ℕ)
  | pull (n : ℕ)

def Pipe.step (p : Pipe α) : PipeEvent → Pipe α
  | .push n => { p with source := p.source.drop n, transit := p.transit ++ p.source.take n }
  | .pull n => { p with transit := p.transit.drop n, out := p.out ++ p.transit.take n }

/-- The pipe that carries `xs`. -/
def pipe (xs : List α) : Lts (Pipe α) PipeEvent :=
  Lts.ofStep ⟨xs, [], []⟩ fun p e ↦ some (p.step e)

/-- No loss, no duplication, no reordering. -/
theorem pipe_conserves {xs : List α} {p : Pipe α} (h : (pipe xs).Reachable p) :
    p.out ++ p.transit ++ p.source = xs := by
  have hinv : (pipe xs).Invariant fun p ↦ p.out ++ p.transit ++ p.source = xs :=
    { init := by
        rintro p rfl
        rfl
      step := by
        rintro p e q hp hstep
        obtain rfl := Option.some.inj hstep
        cases e <;> simpa [Pipe.step] using hp }
  exact hinv.reachable h

end EsNotebook
