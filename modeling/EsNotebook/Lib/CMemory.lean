import Mathlib.Tactic.Ring
import Mathlib.Data.List.Basic

/-!
# Byte-addressed C objects

An object is the list of its bytes.  Loads and stores fail outside it, so a
program that succeeds in this model has touched nothing but the object.
Integers are little-endian.  `strcpy` and `strncmp` are the byte loops of the
C library; `strcpy_eq` replaces the first by one bounded store of the string
found before the first NUL.
-/

namespace EsNotebook

abbrev Bytes := List UInt8

namespace CMemory

/-! ## Little-endian integers -/

/-- The value of bytes that are stored least significant first. -/
def leNat : Bytes → ℕ
  | [] => 0
  | b :: bs => b.toNat + 256 * leNat bs

/-- The `k` low bytes of `n`, least significant first. -/
def leBytes : ℕ → ℕ → Bytes
  | 0, _ => []
  | k + 1, n => UInt8.ofNat n :: leBytes k (n / 256)

@[simp] theorem leBytes_length (k n : ℕ) : (leBytes k n).length = k := by
  induction k generalizing n with
  | zero => rfl
  | succ k ih => simp [leBytes, ih]

theorem leNat_leBytes (k n : ℕ) : leNat (leBytes k n) = n % 256 ^ k := by
  induction k generalizing n with
  | zero => simp [leBytes, leNat, Nat.mod_one]
  | succ k ih =>
      have hlow : (UInt8.ofNat n).toNat = n % 256 := by simp
      rw [leBytes, leNat, ih, hlow, pow_succ', Nat.mod_mul]

/-! ## Loads and stores -/

/-- The `k`-byte integer at offset `off`. -/
def load (k : ℕ) (m : Bytes) (off : ℕ) : Option ℕ :=
  if off + k ≤ m.length then some (leNat ((m.drop off).take k)) else none

/-- Replace the bytes from `off` on by `bs`. -/
def store (m : Bytes) (off : ℕ) (bs : Bytes) : Option Bytes :=
  if off + bs.length ≤ m.length then
    some (m.take off ++ bs ++ m.drop (off + bs.length))
  else none

def load32 (m : Bytes) (off : ℕ) : Option (BitVec 32) :=
  (load 4 m off).map (BitVec.ofNat 32)

/-- The object representation of a 32-bit integer. -/
def bytes32 (v : BitVec 32) : Bytes := leBytes 4 v.toNat

@[simp] theorem bytes32_length (v : BitVec 32) : (bytes32 v).length = 4 :=
  leBytes_length 4 _

theorem load_isSome_iff {k : ℕ} {m : Bytes} {off : ℕ} :
    (load k m off).isSome ↔ off + k ≤ m.length := by
  unfold load
  split <;> simp_all

theorem load32_isSome_iff {m : Bytes} {off : ℕ} :
    (load32 m off).isSome ↔ off + 4 ≤ m.length := by
  rw [load32, Option.isSome_map, load_isSome_iff]

/-- A load of 32 bits sees the integer whose representation lies there. -/
theorem load32_append (pre post : Bytes) (v : BitVec 32) {off : ℕ}
    (hoff : pre.length = off) :
    load32 (pre ++ bytes32 v ++ post) off = some v := by
  subst hoff
  have hbound : pre.length + 4 ≤ (pre ++ bytes32 v ++ post).length := by
    simp
  have hbytes : ((pre ++ bytes32 v ++ post).drop pre.length).take 4 = bytes32 v := by
    rw [List.append_assoc, List.drop_left]
    exact List.take_left' (bytes32_length v)
  have hvalue : leNat (bytes32 v) = v.toNat := by
    rw [bytes32, leNat_leBytes]
    exact Nat.mod_eq_of_lt v.isLt
  rw [load32, load, if_pos hbound, hbytes, hvalue]
  simp

@[simp] theorem store_length {m m' bs : Bytes} {off : ℕ}
    (h : store m off bs = some m') : m'.length = m.length := by
  unfold store at h
  split at h
  case isTrue hle =>
    obtain rfl := Option.some.inj h
    simp only [List.length_append, List.length_take, List.length_drop]
    omega
  case isFalse => cases h

theorem store_isSome_iff {m bs : Bytes} {off : ℕ} :
    (store m off bs).isSome ↔ off + bs.length ≤ m.length := by
  unfold store
  split <;> simp_all

/-- Bytes outside the stored range keep their value. -/
theorem store_getElem?_of_notMem {m m' bs : Bytes} {off i : ℕ}
    (h : store m off bs = some m') (hi : i < off ∨ off + bs.length ≤ i) :
    m'[i]? = m[i]? := by
  unfold store at h
  split at h
  case isTrue hle =>
    obtain rfl := Option.some.inj h
    rcases hi with hi | hi
    · rw [List.append_assoc, List.getElem?_append_left (by simp; omega),
        List.getElem?_take_of_lt hi]
    · rw [List.getElem?_append_right (by simp; omega), List.getElem?_drop]
      congr 1
      simp only [List.length_append, List.length_take]
      omega
  case isFalse => cases h

theorem store_take_drop {m m' bs : Bytes} {off : ℕ}
    (h : store m off bs = some m') : (m'.drop off).take bs.length = bs := by
  unfold store at h
  split at h
  case isTrue hle =>
    obtain rfl := Option.some.inj h
    have hlen : (m.take off).length = off := by simp; omega
    rw [List.append_assoc, List.drop_left' hlen]
    exact List.take_left
  case isFalse => cases h

/-! ## Fields -/

/-- A member of a structure: where it lies and how long it is. -/
structure Field where
  offset : ℕ
  size : ℕ
  deriving DecidableEq, Repr

namespace Field

/-- The bytes of the field. -/
def bytes (f : Field) (m : Bytes) : Bytes := (m.drop f.offset).take f.size

def Within (f : Field) (m : Bytes) : Prop := f.offset + f.size ≤ m.length

def Disjoint (f g : Field) : Prop :=
  f.offset + f.size ≤ g.offset ∨ g.offset + g.size ≤ f.offset

instance (f g : Field) : Decidable (f.Disjoint g) := inferInstanceAs (Decidable (_ ∨ _))

end Field

theorem bytes_store_of_disjoint {m m' bs : Bytes} {off : ℕ} {f : Field}
    (h : store m off bs = some m') (hd : f.Disjoint ⟨off, bs.length⟩) :
    f.bytes m' = f.bytes m := by
  apply List.ext_getElem?
  intro j
  simp only [Field.bytes]
  by_cases hj : j < f.size
  · rw [List.getElem?_take_of_lt hj, List.getElem?_take_of_lt hj,
      List.getElem?_drop, List.getElem?_drop]
    apply store_getElem?_of_notMem h
    simp only [Field.Disjoint] at hd
    omega
  · rw [List.getElem?_eq_none (by simp; omega), List.getElem?_eq_none (by simp; omega)]

theorem load_congr {k : ℕ} {m m' : Bytes} {off : ℕ} (hlen : m'.length = m.length)
    (h : Field.bytes ⟨off, k⟩ m' = Field.bytes ⟨off, k⟩ m) : load k m' off = load k m off := by
  simp only [Field.bytes] at h
  rw [load, load, hlen, h]

theorem load_store_of_disjoint {k : ℕ} {m m' bs : Bytes} {off i : ℕ}
    (h : store m off bs = some m') (hd : Field.Disjoint ⟨i, k⟩ ⟨off, bs.length⟩) :
    load k m' i = load k m i :=
  load_congr (store_length h) (bytes_store_of_disjoint h hd)

theorem load_store_self {k : ℕ} {m m' bs : Bytes} {off : ℕ}
    (h : store m off bs = some m') (hk : bs.length = k) :
    load k m' off = some (leNat bs) := by
  subst hk
  have hle : off + bs.length ≤ m'.length := by
    rw [store_length h]
    exact store_isSome_iff.mp (by simp [h])
  rw [load, if_pos hle, store_take_drop h]

theorem load32_congr {m m' : Bytes} {off : ℕ} (hlen : m'.length = m.length)
    (h : Field.bytes ⟨off, 4⟩ m' = Field.bytes ⟨off, 4⟩ m) : load32 m' off = load32 m off := by
  rw [load32, load32, load_congr hlen h]

theorem load32_store_of_disjoint {m m' bs : Bytes} {off i : ℕ}
    (h : store m off bs = some m') (hd : Field.Disjoint ⟨i, 4⟩ ⟨off, bs.length⟩) :
    load32 m' i = load32 m i := by
  rw [load32, load32, load_store_of_disjoint h hd]

theorem load32_store_self {m m' : Bytes} {off : ℕ} {v : BitVec 32}
    (h : store m off (bytes32 v) = some m') : load32 m' off = some v := by
  have hvalue : leNat (bytes32 v) = v.toNat := by
    rw [bytes32, leNat_leBytes]
    exact Nat.mod_eq_of_lt v.isLt
  rw [load32, load_store_self h (bytes32_length v), hvalue]
  simp

/-! ## C strings -/

/-- The string that starts here: the bytes before the first NUL, when the
object has one. -/
def cString : Bytes → Option Bytes
  | [] => none
  | b :: bs => if b = 0 then some [] else (cString bs).map (b :: ·)

/-- `strcpy(m + off, src)` over the bytes of `src` that exist. -/
def strcpy (m : Bytes) (off : ℕ) : Bytes → Option Bytes
  | [] => none
  | b :: src => do
      let m' ← store m off [b]
      if b = 0 then some m' else strcpy m' (off + 1) src

/-- Storing byte after byte is one store of the whole string. -/
theorem store_cons_store {m : Bytes} {off : ℕ} {b : UInt8} {bs : Bytes} :
    (store m off [b]).bind (fun m' ↦ store m' (off + 1) bs) = store m off (b :: bs) := by
  by_cases hlt : off < m.length
  · have hfirst : store m off [b] = some (m.take off ++ [b] ++ m.drop (off + 1)) := by
      have hle : off + 1 ≤ m.length := hlt
      simp [store, hle]
    have hlen : (m.take off).length = off := by simp; omega
    rw [hfirst, Option.bind_some]
    simp only [store, List.length_append, List.length_cons, List.length_nil, hlen,
      List.length_drop, Nat.zero_add]
    by_cases hle : off + (bs.length + 1) ≤ m.length
    · rw [if_pos (by omega), if_pos hle]
      congr 1
      have htake : (m.take off ++ [b] ++ m.drop (off + 1)).take (off + 1) =
          m.take off ++ [b] := List.take_left' (by simp; omega)
      have hdrop : (m.take off ++ [b] ++ m.drop (off + 1)).drop (off + 1 + bs.length) =
          m.drop (off + (bs.length + 1)) := by
        rw [← List.drop_drop, List.drop_left' (by simp; omega), List.drop_drop]
        congr 1
        omega
      rw [htake, hdrop]
      simp
    · rw [if_neg (by omega), if_neg hle]
  · have hfirst : store m off [b] = none := by
      simp only [store, List.length_singleton]
      exact if_neg (by omega)
    rw [hfirst, Option.bind_none, store, if_neg]
    simp only [List.length_cons]
    omega

/-- The copying loop is one bounded store of the source string and its NUL;
without a NUL in the source it runs off the end. -/
theorem strcpy_eq (m : Bytes) (off : ℕ) (src : Bytes) :
    strcpy m off src = (cString src).bind (fun s ↦ store m off (s ++ [0])) := by
  induction src generalizing m off with
  | nil => rfl
  | cons b src ih =>
      by_cases hb : b = 0
      · subst hb
        simp [strcpy, cString]
      · have hstep : strcpy m off (b :: src) =
            (store m off [b]).bind (fun m' ↦ strcpy m' (off + 1) src) := by
          simp [strcpy, hb]
        rw [hstep, cString, if_neg hb]
        cases hs : cString src with
        | none =>
            simp only [ih, hs, Option.bind_none, Option.map_none]
            cases store m off [b] <;> rfl
        | some s =>
            simp only [ih, hs, Option.bind_some, Option.map_some, List.cons_append]
            exact store_cons_store

/-- The string is found within its first `n` bytes exactly when a NUL is. -/
theorem exists_cString_lt_iff {bs : Bytes} {n : ℕ} :
    (∃ s, cString bs = some s ∧ s.length < n) ↔ (0 : UInt8) ∈ bs.take n := by
  induction bs generalizing n with
  | nil => simp [cString]
  | cons b bs ih =>
      cases n with
      | zero => simp
      | succ n =>
          by_cases hb : b = 0
          · simp [cString, hb]
          · have hne : (0 : UInt8) ≠ b := fun h ↦ hb h.symm
            have hrest := ih (n := n)
            simp only [List.take_succ_cons, List.mem_cons, hne, false_or, ← hrest]
            constructor
            · rintro ⟨s, hs, hlt⟩
              obtain ⟨t, ht, rfl⟩ : ∃ t, cString bs = some t ∧ b :: t = s := by
                simpa [cString, hb] using hs
              exact ⟨t, ht, by simpa using hlt⟩
            · rintro ⟨t, ht, hlt⟩
              exact ⟨b :: t, by simp [cString, hb, ht], by simpa using hlt⟩

/-- `strncmp(a, b, n)`: the difference of the first bytes that differ, read as
`unsigned char`, or zero when `n` bytes or a whole string agree. -/
def strncmp : Bytes → Bytes → ℕ → Option ℤ
  | _, _, 0 => some 0
  | a :: as, b :: bs, n + 1 =>
      if a ≠ b then some ((a.toNat : ℤ) - b.toNat)
      else if a = 0 then some 0
      else strncmp as bs n
  | _, _, _ + 1 => none

theorem strncmp_isSome {a b : Bytes} {n : ℕ} (ha : n ≤ a.length) (hb : n ≤ b.length) :
    (strncmp a b n).isSome := by
  induction n generalizing a b with
  | zero => simp [strncmp]
  | succ n ih =>
      cases a with
      | nil => simp at ha
      | cons x xs =>
          cases b with
          | nil => simp at hb
          | cons y ys =>
              have hrest := ih (a := xs) (b := ys) (by simpa using ha) (by simpa using hb)
              unfold strncmp
              split
              · rfl
              · split
                · rfl
                · exact hrest

/-- Against a string that does not end within `n` bytes the comparison is one
of the bytes. -/
theorem strncmp_eq_zero_iff {a b : Bytes} {n : ℕ} (hb : n ≤ b.length)
    (hnul : (0 : UInt8) ∉ b.take n) : strncmp a b n = some 0 ↔ a.take n = b.take n := by
  induction n generalizing a b with
  | zero => simp [strncmp]
  | succ n ih =>
      cases b with
      | nil => simp at hb
      | cons y ys =>
          simp only [List.take_succ_cons, List.mem_cons, not_or] at hnul
          cases a with
          | nil => simp [strncmp]
          | cons x xs =>
              have hrest := ih (a := xs) (b := ys) (by simpa using hb) hnul.2
              by_cases hxy : x = y
              · have hx : x ≠ 0 := fun h ↦ hnul.1 (by rw [← hxy, h])
                simp [strncmp, hxy, ← hrest, hxy ▸ hx]
              · have hdiff : (x.toNat : ℤ) - y.toNat ≠ 0 := by
                  intro hzero
                  apply hxy
                  apply UInt8.toNat_inj.mp
                  omega
                simp [strncmp, hxy, hdiff]

/-- One `strcpy` into a field: the memory before and after it, and how many
bytes it wrote. -/
structure StringCopy where
  field : Field
  before : Bytes
  after : Bytes
  written : ℕ

/-- The copy stays in its field: no disjoint field changes. -/
structure StringCopy.Fits (c : StringCopy) : Prop where
  written_le : c.written ≤ c.field.size
  frame : ∀ g : Field, g.Disjoint c.field → g.bytes c.after = g.bytes c.before

/-- `strcpy` into the field `f`, with a record of what it did. -/
def copyString (m : Bytes) (f : Field) (src : Bytes) : Option (Bytes × StringCopy) := do
  let m' ← strcpy m f.offset src
  let s ← cString src
  some (m', ⟨f, m, m', s.length + 1⟩)

theorem copyString_eq_some_iff {m : Bytes} {f : Field} {src m' : Bytes} {c : StringCopy} :
    copyString m f src = some (m', c) ↔
      ∃ s, cString src = some s ∧ store m f.offset (s ++ [0]) = some m' ∧
        c = ⟨f, m, m', s.length + 1⟩ := by
  simp only [copyString, strcpy_eq, Option.bind_eq_bind, Option.bind_assoc]
  constructor
  · intro h
    obtain ⟨s, hs, h⟩ := Option.bind_eq_some_iff.mp h
    obtain ⟨m'', hstore, h⟩ := Option.bind_eq_some_iff.mp h
    rw [hs, Option.bind_some] at h
    obtain ⟨rfl, rfl⟩ := Prod.mk.inj (Option.some.inj h)
    exact ⟨s, hs, hstore, rfl⟩
  · rintro ⟨s, hs, hstore, rfl⟩
    simp [hs, hstore]

theorem copyString_length {m : Bytes} {f : Field} {src m' : Bytes} {c : StringCopy}
    (h : copyString m f src = some (m', c)) : m'.length = m.length := by
  obtain ⟨s, -, hstore, -⟩ := copyString_eq_some_iff.mp h
  exact store_length hstore

theorem copyString_frame {m : Bytes} {f g : Field} {src m' : Bytes} {c : StringCopy}
    (h : copyString m f src = some (m', c)) (hfits : c.Fits) (hg : g.Disjoint f) :
    g.bytes m' = g.bytes m := by
  obtain ⟨s, -, -, rfl⟩ := copyString_eq_some_iff.mp h
  exact hfits.frame g hg

/-- A copy that succeeds fits exactly when the source has a NUL in time. -/
theorem fits_iff_mem_take {m : Bytes} {f : Field} {src m' : Bytes} {c : StringCopy}
    (h : copyString m f src = some (m', c)) : c.Fits ↔ (0 : UInt8) ∈ src.take f.size := by
  obtain ⟨s, hs, hstore, rfl⟩ := copyString_eq_some_iff.mp h
  rw [← exists_cString_lt_iff]
  constructor
  · intro hfits
    exact ⟨s, hs, hfits.written_le⟩
  · rintro ⟨s', hs', hlt⟩
    obtain rfl : s = s' := Option.some.inj (hs.symm.trans hs')
    refine ⟨hlt, fun g hg ↦ bytes_store_of_disjoint hstore ?_⟩
    simp only [Field.Disjoint, List.length_append, List.length_singleton] at hg ⊢
    omega

/-- Such a NUL is also enough for the copy to succeed. -/
theorem copyString_of_mem_take {m : Bytes} {f : Field} {src : Bytes} (hf : f.Within m)
    (h : (0 : UInt8) ∈ src.take f.size) : ∃ m' c, copyString m f src = some (m', c) := by
  obtain ⟨s, hs, hlt⟩ := exists_cString_lt_iff.mpr h
  have hroom : (store m f.offset (s ++ [0])).isSome := by
    rw [store_isSome_iff, List.length_append, List.length_singleton]
    simp only [Field.Within] at hf
    omega
  obtain ⟨m', hm'⟩ := Option.isSome_iff_exists.mp hroom
  exact ⟨m', _, copyString_eq_some_iff.mpr ⟨s, hs, hm', rfl⟩⟩

theorem cString_append_zero {bs s : Bytes} (h : cString bs = some s) (rest : Bytes) :
    cString (s ++ 0 :: rest) = some s := by
  induction bs generalizing s with
  | nil => cases h
  | cons b bs ih =>
      by_cases hb : b = 0
      · obtain rfl : [] = s := by simpa [cString, hb] using h
        simp [cString]
      · obtain ⟨t, ht, rfl⟩ : ∃ t, cString bs = some t ∧ b :: t = s := by
          simpa [cString, hb] using h
        simp [cString, hb, ih ht]

theorem cString_bytes_of_fits {m : Bytes} {f : Field} {src m' : Bytes} {c : StringCopy}
    (h : copyString m f src = some (m', c)) (hfits : c.Fits) :
    cString (f.bytes m') = cString src := by
  obtain ⟨s, hs, hstore, rfl⟩ := copyString_eq_some_iff.mp h
  have hle : (s ++ [0]).length ≤ f.size := by simpa using hfits.written_le
  have hbytes : f.bytes m' = s ++ 0 :: (f.bytes m').drop (s ++ [0]).length := by
    have hhead : (f.bytes m').take (s ++ [0]).length = s ++ [0] := by
      rw [Field.bytes, List.take_take, Nat.min_eq_left hle]
      exact store_take_drop hstore
    conv_lhs => rw [← List.take_append_drop (s ++ [0]).length (f.bytes m'), hhead]
    simp
  rw [hbytes, hs]
  exact cString_append_zero hs _

end CMemory

end EsNotebook
