import EsNotebook.Uthash.Hash

/-!
# Sorting and the integrity check

A sort relinks the items in the order of the application and leaves the
chains alone.  The integrity check follows every link of a hash; it has
nothing to report about a hash that represents a list of items.
-/

namespace EsNotebook.Uthash

variable {κ ν : Type} {hashFcn : κ → BitVec 32} {s : Hash κ ν} {items : Heap Addr (Item κ ν)}
  {xs cs : List Addr} {css : List (List Addr)} {a p : Addr} {r : Item κ ν} {t : UtHashTable}
  {cmpfcn : κ × ν → κ × ν → ℤ} {l : List (κ × ν)} {prev q : Option Addr} {n fuel : ℕ}
  {buckets : List UtHashBucket}

/-! ## Sorting -/

/-- Whether the comparison lets `x` come before `y`. -/
def cmpLe (cmpfcn : κ × ν → κ × ν → ℤ) (x y : κ × ν) : Bool := decide (cmpfcn x y ≤ 0)

theorem map_entryAt_mergePasses (hl : xs.map (entryAt items) = l.map some) :
    (mergePasses (appLinks.leAt (fun a b ↦ decide (cmpfcn a.entry b.entry ≤ 0)) items) 1 xs).map
      (entryAt items) = (mergePasses (cmpLe cmpfcn) 1 l).map some := by
  set le' : Option (κ × ν) → Option (κ × ν) → Bool := fun x y ↦
    x.elim false fun x ↦ y.elim false fun y ↦ cmpLe cmpfcn x y
  have hle : ∀ a ∈ xs, ∀ b ∈ xs,
      appLinks.leAt (fun a b ↦ decide (cmpfcn a.entry b.entry ≤ 0)) items a b
        = le' (entryAt items a) (entryAt items b) := by
    intro a _ b _
    unfold Linkage.leAt entryAt
    cases items.get? a <;> cases items.get? b <;> rfl
  have hsome : (mergePasses (cmpLe cmpfcn) 1 l).map some = mergePasses le' 1 (l.map some) :=
    map_mergePasses Nat.one_pos fun _ _ _ _ ↦ rfl
  rw [map_mergePasses Nat.one_pos hle, hl, hsome]

theorem hashSrt_spec (h : Represents hashFcn s xs) (cmpfcn : κ × ν → κ × ν → ℤ)
    (hl : xs.map (entryAt s.items) = l.map some) :
    ∃ s' ys, hashSrt cmpfcn s = some s' ∧ Represents hashFcn s' ys ∧
      (∀ x, entryAt s'.items x = entryAt s.items x) ∧ ys.Perm xs ∧
      ys.map (entryAt s.items) = (mergePasses (cmpLe cmpfcn) 1 l).map some := by
  cases h with
  | empty hhead hcells =>
      obtain rfl : l = [] := by simpa using hl.symm
      exact ⟨s, [], by simp [hashSrt, hhead], .empty hhead hcells, fun _ ↦ rfl, .refl _,
        by simp [mergePasses]⟩
  | @table xs p t h =>
      obtain ⟨hd, hhead, hhd⟩ := h.exists_head
      set le : Item κ ν → Item κ ν → Bool := fun a b ↦ decide (cmpfcn a.entry b.entry ≤ 0) with hle
      have hlen : xs.length < (s.items.size + 1) + 1 :=
        Nat.lt_succ_of_le ((Heap.length_le_size_of_chain h.linked.chain).trans (Nat.le_succ _))
      obtain ⟨o, hsort, hlinked, htail, hsame, -⟩ :=
        Linkage.sortLoop_spec le Nat.one_pos h.linked.chain hlen (Nat.succ_pos _)
      set ys := mergePasses (appLinks.leAt le s.items) 1 xs with hys
      have hperm : ys.Perm xs := mergePasses_perm Nat.one_pos xs
      have hne : ys ≠ [] := fun hnil ↦ h.ne_nil (List.Perm.eq_nil (hnil ▸ hperm.symm))
      obtain ⟨tail, hlast⟩ : ∃ tail, ys.getLast? = some tail :=
        ⟨_, List.getLast?_eq_some_getLast hne⟩
      have hcore := coreAt_of_sameBut_app hsame
      -- the table is read through the old head, whose record is relinked already
      have htbl : ({ s with items := o.heap } : Hash κ ν).tbl = some (p, t) := by
        obtain ⟨e, he⟩ := h.core hd hhd
        rw [← hcore] at he
        obtain ⟨r, hr, hrcore⟩ := Option.map_eq_some_iff.mp he
        have hp : r.hh.tbl = p := congrArg (fun c ↦ c.2.2) hrcore
        have ht : s.tables.get? p = some t := by simp [Heap.get?, h.cells]
        simp [Hash.tbl, hhead, hr, hp, ht]
      refine ⟨({ s with head := o.list, items := o.heap } : Hash κ ν).setTbl p { t with tail := tail },
        ys, ?_, .table (p := p) (t := { t with tail := tail }) ⟨hlinked, fun x hx ↦ ?_,
          TableAt.cells_setTbl h.cells, ⟨?_, h.table.pow, h.table.bounded⟩, hlast, ?_⟩,
        fun x ↦ entryAt_of_coreAt (hcore x), hperm, map_entryAt_mergePasses hl⟩
      · rw [hlast] at htail
        have hsome : s.head ≠ none := by simp [hhead]
        rw [hashSrt, if_neg hsome, ← hle, hsort]
        simp [htbl, htail]
      · change ∃ e, coreAt o.heap x = _
        rw [hcore]
        exact h.core x (hperm.mem_iff.mp hx)
      · exact (h.table.buckets.sameBut_app hsame).congr_mem fun x ↦ hperm.mem_iff
      · change t.numItems = _
        rw [h.count, hperm.length_eq]

/-! ## The integrity check -/

theorem fsckList_spec {L : Linkage Addr (Item κ ν) (Item κ ν)} {back : Item κ ν → Option Addr}
    (hback : ∀ b r, L.Back b r → back r = b) (hl : L.Linked items prev q cs none)
    (hfuel : cs.length < fuel) :
    fsckList L back items fuel prev q n = some (some (n + cs.length)) := by
  induction cs generalizing prev q n fuel with
  | nil =>
      obtain rfl := Linkage.linked_nil.mp hl
      cases fuel with
      | zero => simp at hfuel
      | succ fuel => rfl
  | cons c cs ih =>
      obtain ⟨rfl, r, hr, hprev, hl⟩ := hl
      cases fuel with
      | zero => simp at hfuel
      | succ fuel =>
          have hrest := ih (n := n + 1) hl (Nat.lt_of_succ_lt_succ hfuel)
          have hlen : n + 1 + cs.length = n + (cs.length + 1) := by omega
          simp [fsckList, hr, hback _ _ hprev, hrest, hlen]

theorem fsckBuckets_spec (hcss : List.Forall₂ (BktChain items) buckets css) :
    buckets.foldlM (fsckBucket items) (some n) = some (some (n + css.flatten.length)) := by
  induction hcss generalizing n with
  | nil => rfl
  | @cons b cs buckets css hb _ ih =>
      have hcs := fsckList_spec (L := bktLinks) (n := 0) (fun _ _ h ↦ h) hb.1
        (Nat.lt_succ_of_le (Heap.length_le_size_of_chain hb.1.chain))
      have hstep : fsckBucket items (some n) b = some (some (n + cs.length)) := by
        simp only [Nat.zero_add] at hcs
        simp [fsckBucket, hcs, hb.2]
      rw [List.foldlM_cons, hstep]
      change buckets.foldlM (fsckBucket items) (some (n + cs.length)) = _
      rw [ih, List.flatten_cons, List.length_append, Nat.add_assoc]

theorem hashFsck_spec (h : Represents hashFcn s xs) : hashFsck s = some true := by
  cases h with
  | empty hhead _ => simp [hashFsck, hhead]
  | @table xs p t h =>
      obtain ⟨hd, hhead, -⟩ := h.exists_head
      obtain ⟨css, hcss, hnodup, hmem⟩ :=
        h.table.buckets.exists_chains h.table.numBuckets_pos fun a ha ↦ h.linked.exists_get? ha
      have hlen : css.flatten.length = xs.length :=
        ((List.perm_ext_iff_of_nodup hnodup h.linked.chain.nodup).mpr hmem).length_eq
      have hbkts := fsckBuckets_spec (n := 0) hcss
      have happ := fsckList_spec (L := appLinks) (n := 0) (fun _ _ h ↦ h) h.linked
        (Nat.lt_succ_of_le (Heap.length_le_size_of_chain h.linked.chain))
      rw [Nat.zero_add] at hbkts happ
      simp only [hashFsck, h.tbl_eq, Option.bind_eq_bind, Option.bind_some, hbkts, happ]
      simp [hhead, hlen, h.count]

end EsNotebook.Uthash
