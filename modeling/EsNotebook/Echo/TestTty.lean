import EsNotebook.Lib.CMemory
import Mathlib.Tactic.Ring

/-!
# The tty client

The read callbacks of `test-tty.c`.  `recv_cb` passes what is typed on to the
server, `tcp_read_cb` copies what comes back into a local array and prints the
buffer up to a NUL that nobody has put there.  The model keeps a log of the
bytes that each callback touches.
-/

namespace EsNotebook.TestTty

/-- The size libuv suggests to `alloc_cb`. -/
def suggestedSize : ℕ := 65536

/-- `char temp[128]` -/
def tempSize : ℕ := 128

/-- A read that libuv delivers: the count and the buffer of `alloc_cb`, of which
the first `nread` bytes have been received. -/
structure ReadEvent where
  nread : ℤ
  base : Bytes
  length_base : base.length = suggestedSize
  nread_le : nread ≤ suggestedSize

inductive Access where
  /-- `buf->base[i]` is read -/
  | base (i : ℕ)
  /-- `temp[i]` is written -/
  | temp (i : ℕ)
  /-- `buf->base[i]` is printed -/
  | stdout (i : ℕ)
  /-- the count given to `uv_buf_init` -/
  | length (count : ℤ)
  | free
  | close
  deriving DecidableEq, Repr

/-- The loop of `strncpy(temp, src, n)` from index `i` on: it stops reading at a
NUL and fills the rest. -/
def strncpy : ℕ → Bytes → ℕ → List Access
  | _, _, 0 => []
  | i, [], _ + 1 => [.base i]
  | i, b :: src, n + 1 =>
      .base i :: .temp i ::
        if b = 0 then (List.range' (i + 1) n).map .temp else strncpy (i + 1) src n

/-- `printf("%s", src)` from index `i` on. -/
def printString : ℕ → Bytes → List Access
  | i, [] => [.base i]
  | i, b :: src => .base i :: if b = 0 then [] else .stdout i :: printString (i + 1) src

/-- The length that `uv_buf_init` keeps, an `unsigned int`. -/
def uvBufInit (count : ℤ) : ℕ := (count % 2 ^ 32).toNat

/-- `uv_write` of the buffer -/
def uvWrite (len : ℕ) : List Access := (List.range len).map .base

/-- `recv_cb` -/
def recvCb (r : ReadEvent) : List Access := .length r.nread :: uvWrite (uvBufInit r.nread)

/-- `tcp_read_cb` -/
def tcpReadCb (r : ReadEvent) : List Access :=
  if 0 ≤ r.nread then
    -- `temp` is not used, `printf` is given the buffer
    strncpy 0 r.base r.nread.toNat ++ [.temp r.nread.toNat] ++ printString 0 r.base ++ [.free]
  else [.close]

inductive Callback where
  | recvCb
  | tcpReadCb
  deriving DecidableEq, Repr

def Callback.run : Callback → ReadEvent → List Access
  | .recvCb => TestTty.recvCb
  | .tcpReadCb => TestTty.tcpReadCb

/-- Only received bytes are read and printed, only the array is written, and no
negative count is passed on. -/
structure WithinBuffers (nread : ℤ) (log : List Access) : Prop where
  base : ∀ i : ℕ, .base i ∈ log → (i : ℤ) < nread
  temp : ∀ i, .temp i ∈ log → i < tempSize
  stdout : ∀ i : ℕ, .stdout i ∈ log → (i : ℤ) < nread
  length : ∀ count, .length count ∈ log → 0 ≤ count

/-- For typed input: no error.  From the server: an error, or a string with its
NUL that leaves room for another one. -/
def Fits : Callback → ReadEvent → Prop
  | .recvCb, r => 0 ≤ r.nread
  | .tcpReadCb, r => r.nread < 0 ∨ r.nread < tempSize ∧ 0 ∈ r.base.take r.nread.toNat

variable {i j n m : ℕ} {src : Bytes} {r : ReadEvent}

/-! ## The loops -/

/-- Within a long enough source the copy stays among the first `n` bytes. -/
theorem mem_strncpy (h : n ≤ src.length) {a : Access} (ha : a ∈ strncpy i src n) :
    ∃ j, i ≤ j ∧ j < i + n ∧ (a = .base j ∨ a = .temp j) := by
  induction n generalizing i src with
  | zero => cases ha
  | succ n ih =>
      cases src with
      | nil => simp at h
      | cons b src =>
          rw [strncpy] at ha
          rcases List.mem_cons.mp ha with rfl | ha
          · exact ⟨i, le_rfl, by omega, .inl rfl⟩
          rcases List.mem_cons.mp ha with rfl | ha
          · exact ⟨i, le_rfl, by omega, .inr rfl⟩
          split_ifs at ha
          · obtain ⟨j, hj, rfl⟩ := List.mem_map.mp ha
            rw [List.mem_range'_1] at hj
            exact ⟨j, by omega, by omega, .inr rfl⟩
          · obtain ⟨j, hij, hj, hor⟩ := ih (by simpa using h) ha
            exact ⟨j, by omega, by omega, hor⟩

/-- A NUL among the first bytes ends the printing there. -/
theorem mem_printString (h : 0 ∈ src.take m) {a : Access} (ha : a ∈ printString i src) :
    ∃ j, j < i + m ∧ (a = .base j ∨ a = .stdout j) := by
  induction src generalizing i m with
  | nil => simp at h
  | cons b src ih =>
      cases m with
      | zero => simp at h
      | succ m =>
          rw [printString] at ha
          rcases List.mem_cons.mp ha with rfl | ha
          · exact ⟨i, by omega, .inl rfl⟩
          split_ifs at ha with hb
          · cases ha
          · rcases List.mem_cons.mp ha with rfl | ha
            · exact ⟨i, by omega, .inr rfl⟩
            · have hmem : 0 ∈ src.take m := by
                rw [List.take_succ_cons, List.mem_cons] at h
                rcases h with h | h
                · exact absurd h.symm hb
                · exact h
              obtain ⟨j, hj, hor⟩ := ih hmem ha
              exact ⟨j, by omega, hor⟩

/-- Without one the printing goes on behind them. -/
theorem base_mem_printString (h : 0 ∉ src.take m) (hm : m ≤ src.length) :
    .base (i + m) ∈ printString i src := by
  induction src generalizing i m with
  | nil =>
      obtain rfl : m = 0 := by simpa using hm
      simp [printString]
  | cons b src ih =>
      cases m with
      | zero => simp [printString]
      | succ m =>
          rw [List.take_succ_cons, List.mem_cons, not_or] at h
          have hrest : .base (i + 1 + m) ∈ printString (i + 1) src := ih h.2 (by simpa using hm)
          rw [printString, if_neg (Ne.symm h.1)]
          rw [show i + (m + 1) = i + 1 + m by omega]
          exact List.mem_cons_of_mem _ (List.mem_cons_of_mem _ hrest)

/-! ## The callbacks -/

theorem within_recvCb_iff : WithinBuffers r.nread (recvCb r) ↔ 0 ≤ r.nread := by
  constructor
  · intro h
    exact h.length r.nread List.mem_cons_self
  · intro h
    have hle := r.nread_le
    have hlen : uvBufInit r.nread = r.nread.toNat := by
      unfold uvBufInit
      unfold suggestedSize at hle
      rw [Int.emod_eq_of_lt h (by omega)]
    have hlog (a : Access) (ha : a ∈ recvCb r) :
        a = .length r.nread ∨ ∃ i, i < r.nread.toNat ∧ a = .base i := by
      rcases List.mem_cons.mp ha with rfl | ha
      · exact .inl rfl
      · rw [hlen] at ha
        obtain ⟨i, hi, rfl⟩ := List.mem_map.mp ha
        exact .inr ⟨i, List.mem_range.mp hi, rfl⟩
    constructor
    · intro i hi
      rcases hlog _ hi with hi | ⟨j, hj, hi⟩
      · cases hi
      · cases hi
        omega
    · intro i hi
      rcases hlog _ hi with hi | ⟨j, -, hi⟩ <;> cases hi
    · intro i hi
      rcases hlog _ hi with hi | ⟨j, -, hi⟩ <;> cases hi
    · intro count hcount
      rcases hlog _ hcount with hcount | ⟨j, -, hcount⟩
      · cases hcount
        exact h
      · cases hcount

theorem mem_tcpReadCb (hpos : 0 ≤ r.nread) (hnul : 0 ∈ r.base.take r.nread.toNat) {a : Access}
    (ha : a ∈ tcpReadCb r) : a = .free ∨ a = .temp r.nread.toNat ∨
      ∃ j < r.nread.toNat, a = .base j ∨ a = .temp j ∨ a = .stdout j := by
  have hle : r.nread.toNat ≤ r.base.length := by
    have hsize := r.nread_le
    rw [r.length_base]
    omega
  rw [tcpReadCb, if_pos hpos] at ha
  simp only [List.mem_append, List.mem_singleton] at ha
  rcases ha with ((ha | ha) | ha) | ha
  · obtain ⟨j, -, hj, hor⟩ := mem_strncpy hle ha
    exact .inr (.inr ⟨j, by omega, by tauto⟩)
  · exact .inr (.inl ha)
  · obtain ⟨j, hj, hor⟩ := mem_printString hnul ha
    exact .inr (.inr ⟨j, by omega, by tauto⟩)
  · exact .inl ha

theorem within_tcpReadCb_of_fits (h : Fits .tcpReadCb r) :
    WithinBuffers r.nread (tcpReadCb r) := by
  by_cases hpos : 0 ≤ r.nread
  · obtain ⟨htemp, hnul⟩ : r.nread < tempSize ∧ 0 ∈ r.base.take r.nread.toNat := by
      rcases h with h | h
      · omega
      · exact h
    constructor
    · intro i hi
      rcases mem_tcpReadCb hpos hnul hi with h | h | ⟨j, hj, h | h | h⟩ <;> cases h
      omega
    · intro i hi
      rcases mem_tcpReadCb hpos hnul hi with h | h | ⟨j, hj, h | h | h⟩ <;> cases h
      · omega
      · omega
    · intro i hi
      rcases mem_tcpReadCb hpos hnul hi with h | h | ⟨j, hj, h | h | h⟩ <;> cases h
      omega
    · intro count hcount
      rcases mem_tcpReadCb hpos hnul hcount with h | h | ⟨j, hj, h | h | h⟩ <;> cases h
  · have hlog : tcpReadCb r = [.close] := if_neg hpos
    rw [hlog]
    constructor <;> simp

theorem fits_of_within_tcpReadCb (h : WithinBuffers r.nread (tcpReadCb r)) :
    Fits .tcpReadCb r := by
  by_cases hpos : 0 ≤ r.nread
  · have hlog : tcpReadCb r = strncpy 0 r.base r.nread.toNat ++ [.temp r.nread.toNat] ++
        printString 0 r.base ++ [.free] := if_pos hpos
    right
    constructor
    · have htemp := h.temp r.nread.toNat (by rw [hlog]; simp)
      omega
    · by_contra hnul
      have hle : r.nread.toNat ≤ r.base.length := by
        have hsize := r.nread_le
        rw [r.length_base]
        omega
      have hread : .base (0 + r.nread.toNat) ∈ tcpReadCb r := by
        have hprint := base_mem_printString (i := 0) hnul hle
        rw [hlog]
        simp only [List.mem_append]
        exact .inl (.inr hprint)
      have hlt := h.base _ hread
      omega
  · exact .inl (not_le.mp hpos)

/-- Exactly on the reads that fit a callback stays within its buffers. -/
theorem within_buffers_iff (callback : Callback) (r : ReadEvent) :
    WithinBuffers r.nread (callback.run r) ↔ Fits callback r := by
  cases callback with
  | recvCb => exact within_recvCb_iff
  | tcpReadCb => exact ⟨fits_of_within_tcpReadCb, within_tcpReadCb_of_fits⟩

/-- A read of 128 letters from the server. -/
def longRead : ReadEvent where
  nread := 128
  base := List.replicate 128 97 ++ List.replicate 65408 0
  length_base := by rw [List.length_append, List.length_replicate, List.length_replicate]; rfl
  nread_le := by decide

/-- The NUL behind it is written to `temp[128]`. -/
theorem long_read_overflows : ¬∀ (callback : Callback) (r : ReadEvent),
    WithinBuffers r.nread (callback.run r) := by
  intro h
  have hfits := fits_of_within_tcpReadCb (h .tcpReadCb longRead)
  rcases hfits with hneg | ⟨hlt, -⟩
  · exact absurd hneg (by decide)
  · exact absurd hlt (by decide)

end EsNotebook.TestTty
