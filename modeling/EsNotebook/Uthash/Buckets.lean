import EsNotebook.Uthash.Table

/-!
# The chains of the buckets

Each item stands in the chain of the bucket that its hash value selects, and
in no other.  Adding and deleting an item changes one chain, and an expansion
moves the items one at a time to twice the number of buckets.  All of this
changes the links of the chains only.
-/

namespace EsNotebook.Uthash

variable {κ ν : Type} {items items' : Heap Addr (Item κ ν)} {n i : ℕ}
  {buckets : List UtHashBucket} {xs ys bs : List Addr} {a x : Addr} {r : Item κ ν}
  {b : UtHashBucket} {p q : Option Addr}

/-! ## Two linkages on the same items -/

theorem linked_app_of_sameBut (hs : bktLinks.SameBut items items')
    (hl : appLinks.Linked items q p xs none) : appLinks.Linked items' q p xs none := by
  refine hl.congr fun a _ r hr ↦ ?_
  obtain ⟨r', hr', hpayload⟩ := hs.exists_get? hr
  have hnext := congrArg (fun r : Item κ ν ↦ r.hh.next) hpayload
  have hprev := congrArg (fun r : Item κ ν ↦ r.hh.prev) hpayload
  exact ⟨r', hr', hnext, fun _ hback ↦ hprev.trans hback⟩

theorem linked_bkt_of_sameBut (hs : appLinks.SameBut items items')
    (hl : bktLinks.Linked items q p xs none) : bktLinks.Linked items' q p xs none := by
  refine hl.congr fun a _ r hr ↦ ?_
  obtain ⟨r', hr', hpayload⟩ := hs.exists_get? hr
  have hnext := congrArg (fun r : Item κ ν ↦ r.hh.hhNext) hpayload
  have hprev := congrArg (fun r : Item κ ν ↦ r.hh.hhPrev) hpayload
  exact ⟨r', hr', hnext, fun _ hback ↦ hprev.trans hback⟩

/-- The bucket of an item, of `n` buckets. -/
def bktOf (items : Heap Addr (Item κ ν)) (n : ℕ) (a : Addr) : Option ℕ :=
  (items.get? a).map fun r ↦ hashToBkt r.hh.hashv n

theorem hashToBkt_lt {v : BitVec 32} (hn : 0 < n) : hashToBkt v n < n :=
  Nat.lt_of_le_of_lt Nat.and_le_right (by omega)

theorem bktOf_of_get? (hr : items.get? a = some r) :
    bktOf items n a = some (hashToBkt r.hh.hashv n) := by
  simp [bktOf, hr]

theorem bktOf_of_sameBut_bkt (hs : bktLinks.SameBut items items') :
    bktOf items' n a = bktOf items n a := by
  have h := congrArg (Option.map fun r : Item κ ν ↦ hashToBkt r.hh.hashv n) (hs a)
  rw [Option.map_map, Option.map_map] at h
  exact h

theorem bktOf_of_sameBut_app (hs : appLinks.SameBut items items') :
    bktOf items' n a = bktOf items n a := by
  have h := congrArg (Option.map fun r : Item κ ν ↦ hashToBkt r.hh.hashv n) (hs a)
  rw [Option.map_map, Option.map_map] at h
  exact h

/-! ## One chain -/

theorem pushChain_spec (hr : items.get? a = some r) (hl : bktLinks.Linked items none p bs none)
    (ha : a ∉ bs) :
    ∃ items', pushChain items p a = some items' ∧ bktLinks.SameBut items items' ∧
      bktLinks.Linked items' none (some a) (a :: bs) none ∧
      ∀ x, x ≠ a → x ∉ bs → items'.get? x = items.get? x := by
  set f : Item κ ν → Item κ ν := fun r ↦ { r with hh := { r.hh with hhNext := p, hhPrev := none } }
  have hl₁ : bktLinks.Linked (items.modify a f) none p bs none := hl.modify_of_notMem ha
  have hr₁ : (items.modify a f).get? a = some (f r) := Heap.get?_modify_of_get? hr
  have hne : p ≠ some a := by
    rintro rfl
    exact ha (List.mem_of_mem_head? hl.head?.symm)
  refine ⟨bktLinks.setBack (items.modify a f) p (some a), ?_, ?_, ?_, ?_⟩
  · cases p with
    | none => simp [pushChain, Heap.store_of_get? hr, Linkage.setBack, f]
    | some x =>
        obtain ⟨rx, hrx⟩ := hl₁.exists_get? (List.mem_of_mem_head? hl.head?.symm)
        simp [pushChain, Heap.store_of_get? hr, Heap.store_of_get? hrx, Linkage.setBack, f]
  · have hf : ∀ r, bktLinks.payload (f r) = bktLinks.payload r := fun _ ↦ rfl
    exact (Linkage.SameBut.refl.modify hf).setBack p (some a)
  · refine ⟨rfl, f r, ?_, rfl, ?_⟩
    · rw [Linkage.get?_setBack_of_ne hne, hr₁]
    · exact hl₁.setBack hl.chain.nodup (some a)
  · intro x hxa hxbs
    have hpx : p ≠ some x := by
      rintro rfl
      exact hxbs (List.mem_of_mem_head? hl.head?.symm)
    rw [Linkage.get?_setBack_of_ne hpx, Heap.get?_modify_of_ne hxa]

theorem hashDelInBkt_spec {pre post : List Addr}
    (hl : bktLinks.Linked items none b.hhHead (pre ++ a :: post) none) :
    ∃ items' b', hashDelInBkt items b a = some (items', b') ∧ bktLinks.SameBut items items' ∧
      bktLinks.Linked items' none b'.hhHead (pre ++ post) none ∧ b'.count = b.count - 1 ∧
      b'.expandMult = b.expandMult ∧
      ∀ x, x ∉ pre ++ post → items'.get? x = items.get? x := by
  have hnodup : (pre ++ a :: post).Nodup := hl.chain.nodup
  obtain ⟨r, hr, hprev, hnext⟩ := hl.get?
  rw [Option.or_none] at hprev
  change r.hh.hhPrev = pre.getLast? at hprev
  change r.hh.hhNext = post.head? at hnext
  have hhead : (if b.hhHead = some a then post.head? else b.hhHead)
      = if pre = [] then post.head? else b.hhHead := by
    refine if_congr ?_ rfl rfl
    rw [hl.head?]
    cases pre with
    | nil => simp
    | cons y pre =>
        have hya : y ≠ a := fun h ↦ by
          subst h
          simp at hnodup
        simp [hya]
  refine ⟨bktLinks.bypass items pre.getLast? post.head?,
    ⟨if pre = [] then post.head? else b.hhHead, b.count - 1, b.expandMult⟩, ?_,
    .bypass _ _, hl.bypass hnodup, rfl, rfl, ?_⟩
  · -- each neighbour is an item of the chain
    have hmem : ∀ y, y ∈ pre ++ a :: post → ∃ s, items.get? y = some s := fun y hy ↦
      hl.exists_get? hy
    rw [← hhead]
    cases hlast : pre.getLast? with
    | none =>
        cases hfirst : post.head? with
        | none => simp [hashDelInBkt, hr, hprev, hnext, hlast, hfirst, Linkage.bypass,
            Linkage.setBack, Linkage.setForward]
        | some z =>
            obtain ⟨s, hs⟩ := hmem z (by simp [List.mem_of_mem_head? hfirst])
            simp [hashDelInBkt, hr, hprev, hnext, hlast, hfirst, Heap.store_of_get? hs,
              Linkage.bypass, Linkage.setBack, Linkage.setForward]
    | some y =>
        obtain ⟨s, hs⟩ := hmem y (by simp [List.mem_of_getLast? hlast])
        cases hfirst : post.head? with
        | none => simp [hashDelInBkt, hr, hprev, hnext, hlast, hfirst, Heap.store_of_get? hs,
            Linkage.bypass, Linkage.setBack, Linkage.setForward]
        | some z =>
            obtain ⟨u, hu⟩ := hmem z (by simp [List.mem_of_mem_head? hfirst])
            obtain ⟨u', hu'⟩ : ∃ u', (items.modify y (bktLinks.setNext (some z))).get? z = some u' :=
              Option.isSome_iff_exists.mp (by rw [Heap.isSome_get?_modify, hu]; rfl)
            simp [hashDelInBkt, hr, hprev, hnext, hlast, hfirst, Heap.store_of_get? hs,
              Heap.store_of_get? hu', Linkage.bypass, Linkage.setBack, Linkage.setForward]
  · intro x hx
    refine Linkage.get?_bypass_of_ne ?_ ?_
    · intro hlast
      exact hx (by simp [List.mem_of_getLast? hlast])
    · intro hfirst
      exact hx (by simp [List.mem_of_mem_head? hfirst])

/-! ## All chains -/

/-- The `n` buckets hold the items `xs`, each in the chain of its bucket. -/
structure BucketsOf (items : Heap Addr (Item κ ν)) (n : ℕ) (buckets : List UtHashBucket)
    (xs : List Addr) : Prop where
  length : buckets.length = n
  chain : ∀ i b, buckets[i]? = some b → ∃ bs, bktLinks.Linked items none b.hhHead bs none ∧
    b.count = bs.length ∧ ∀ a, a ∈ bs ↔ a ∈ xs ∧ bktOf items n a = some i

theorem bucketsOf_replicate :
    BucketsOf items n (List.replicate n ⟨none, 0, 0⟩) [] where
  length := by simp
  chain i b hb := by
    rw [List.getElem?_replicate] at hb
    split at hb
    · obtain rfl := Option.some.inj hb
      exact ⟨[], rfl, rfl, by simp⟩
    · cases hb

namespace BucketsOf

theorem congr_mem (h : BucketsOf items n buckets xs) (hmem : ∀ a, a ∈ ys ↔ a ∈ xs) :
    BucketsOf items n buckets ys where
  length := h.length
  chain i b hb := by simpa only [hmem] using h.chain i b hb

theorem sameBut_app (h : BucketsOf items n buckets xs) (hs : appLinks.SameBut items items') :
    BucketsOf items' n buckets xs where
  length := h.length
  chain i b hb := by
    obtain ⟨bs, hl, hcount, hmem⟩ := h.chain i b hb
    exact ⟨bs, linked_bkt_of_sameBut hs hl, hcount, by simpa only [bktOf_of_sameBut_app hs]⟩

/-- Writes to other items do not matter. -/
theorem congr_get? (h : BucketsOf items n buckets xs)
    (heq : ∀ a ∈ xs, items'.get? a = items.get? a) : BucketsOf items' n buckets xs where
  length := h.length
  chain i b hb := by
    obtain ⟨bs, hl, hcount, hmem⟩ := h.chain i b hb
    refine ⟨bs, hl.congr_get? fun a ha ↦ heq a ((hmem a).mp ha).1, hcount, fun a ↦ ?_⟩
    rw [hmem]
    refine and_congr_right fun ha ↦ ?_
    rw [bktOf, bktOf, heq a ha]

theorem exists_bucket (h : BucketsOf items n buckets xs) (hi : i < n) :
    ∃ b, buckets[i]? = some b :=
  ⟨_, List.getElem?_eq_getElem (by rwa [h.length])⟩

/-- A change of one chain, with new contents `ys` of the hash. -/
theorem set {b' : UtHashBucket} {bs' : List Addr} (h : BucketsOf items n buckets xs)
    (hi : i < n) (hs : bktLinks.SameBut items items')
    (hl : bktLinks.Linked items' none b'.hhHead bs' none) (hcount : b'.count = bs'.length)
    (hmem : ∀ a, a ∈ bs' ↔ a ∈ ys ∧ bktOf items n a = some i)
    (hother : ∀ j, j ≠ i → ∀ a, bktOf items n a = some j →
      (a ∈ ys ↔ a ∈ xs) ∧ (a ∈ xs → items'.get? a = items.get? a)) :
    BucketsOf items' n (buckets.set i b') ys where
  length := by simpa using h.length
  chain j c hc := by
    by_cases hj : j = i
    · subst hj
      rw [List.getElem?_set_self (by rwa [h.length])] at hc
      obtain rfl := Option.some.inj hc
      exact ⟨bs', hl, hcount, by simpa only [bktOf_of_sameBut_bkt hs]⟩
    · rw [List.getElem?_set_ne (Ne.symm hj)] at hc
      obtain ⟨cs, hlc, hcountc, hmemc⟩ := h.chain j c hc
      refine ⟨cs, hlc.congr_get? fun a ha ↦ ?_, hcountc, fun a ↦ ?_⟩
      · obtain ⟨haxs, haj⟩ := (hmemc a).mp ha
        exact (hother j hj a haj).2 haxs
      · rw [hmemc, bktOf_of_sameBut_bkt hs]
        exact and_congr_left fun haj ↦ (hother j hj a haj).1.symm

theorem push (h : BucketsOf items n buckets xs) (hn : 0 < n) (ha : a ∉ xs)
    (hr : items.get? a = some r) :
    ∃ b items', buckets[hashToBkt r.hh.hashv n]? = some b ∧
      pushChain items b.hhHead a = some items' ∧ bktLinks.SameBut items items' ∧
      (∀ m, BucketsOf items' n
        (buckets.set (hashToBkt r.hh.hashv n) ⟨some a, b.count + 1, m⟩) (a :: xs)) ∧
      ∀ x, x ∉ a :: xs → items'.get? x = items.get? x := by
  set i := hashToBkt r.hh.hashv n with hi
  have hin : i < n := hashToBkt_lt hn
  obtain ⟨b, hb⟩ := h.exists_bucket hin
  obtain ⟨bs, hl, hcount, hmem⟩ := h.chain i b hb
  have habs : a ∉ bs := fun hbs ↦ ha ((hmem a).mp hbs).1
  obtain ⟨items', hpush, hs, hl', hframe⟩ := pushChain_spec hr hl habs
  refine ⟨b, items', hb, hpush, hs, fun m ↦ h.set hin hs hl' (by simp [hcount]) ?_ ?_, ?_⟩
  · intro x
    rw [List.mem_cons, List.mem_cons, hmem]
    by_cases hx : x = a
    · subst hx
      simp [bktOf_of_get? hr, hi]
    · simp [hx]
  · intro j hj x hx
    have hxa : x ≠ a := by
      rintro rfl
      rw [bktOf_of_get? hr] at hx
      exact hj (Option.some.inj hx).symm
    refine ⟨by simp [hxa], fun _ ↦ hframe x hxa fun hbs ↦ hj ?_⟩
    exact Option.some.inj (hx.symm.trans ((hmem x).mp hbs).2)
  · intro x hx
    obtain ⟨hxa, hxs⟩ := not_or.mp (List.mem_cons.not.mp hx)
    exact hframe x hxa fun hbs ↦ hxs ((hmem x).mp hbs).1

theorem del (h : BucketsOf items n buckets xs) (hn : 0 < n) (hxs : xs.Nodup) (ha : a ∈ xs)
    (hr : items.get? a = some r) :
    ∃ b b' items', buckets[hashToBkt r.hh.hashv n]? = some b ∧
      hashDelInBkt items b a = some (items', b') ∧ bktLinks.SameBut items items' ∧
      b'.count ≤ b.count ∧ b'.expandMult = b.expandMult ∧
      BucketsOf items' n (buckets.set (hashToBkt r.hh.hashv n) b') (xs.erase a) ∧
      ∀ x, x ∉ xs → items'.get? x = items.get? x := by
  set i := hashToBkt r.hh.hashv n with hi
  have hin : i < n := hashToBkt_lt hn
  obtain ⟨b, hb⟩ := h.exists_bucket hin
  obtain ⟨bs, hl, hcount, hmem⟩ := h.chain i b hb
  have habs : a ∈ bs := (hmem a).mpr ⟨ha, bktOf_of_get? hr⟩
  obtain ⟨pre, post, rfl⟩ := List.append_of_mem habs
  obtain ⟨items', b', hdel, hs, hl', hcount', hmult, hframe⟩ := hashDelInBkt_spec hl
  have hnodup : (pre ++ a :: post).Nodup := hl.chain.nodup
  have hane : ∀ x, x ∈ pre ++ post → x ≠ a := by
    rintro x hx rfl
    exact (List.nodup_cons.mp (List.nodup_middle.mp hnodup)).1 hx
  have hmem' : ∀ x, x ∈ pre ++ post ↔ x ∈ pre ++ a :: post ∧ x ≠ a := by
    intro x
    constructor
    · intro hx
      refine ⟨?_, hane x hx⟩
      rw [List.mem_append] at hx ⊢
      exact hx.imp_right (List.mem_cons_of_mem a)
    · rintro ⟨hx, hxa⟩
      simpa [hxa] using hx
  refine ⟨b, b', items', hb, hdel, hs, by omega, hmult, h.set hin hs hl' ?_ ?_ ?_, ?_⟩
  · rw [hcount', hcount]
    simp only [List.length_append, List.length_cons]
    omega
  · intro x
    rw [hmem', hmem, hxs.mem_erase_iff]
    tauto
  · intro j hj x hx
    have hxa : x ≠ a := by
      rintro rfl
      rw [bktOf_of_get? hr] at hx
      exact hj (Option.some.inj hx).symm
    refine ⟨by rw [hxs.mem_erase_iff]; simp [hxa], fun _ ↦ hframe x fun hbs ↦ hj ?_⟩
    exact Option.some.inj (hx.symm.trans ((hmem x).mp ((hmem' x).mp hbs).1).2)
  · exact fun x hx ↦ hframe x fun hbs ↦ hx ((hmem x).mp ((hmem' x).mp hbs).1).1

end BucketsOf

end EsNotebook.Uthash
