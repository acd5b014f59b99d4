import EsNotebook.Uthash.Buckets
import Mathlib.Data.List.Forall2
import Mathlib.Data.List.Nodup
import Mathlib.Tactic.Ring

/-!
# Expanding the buckets

An expansion visits the old buckets in order and follows each chain while it
takes the chain apart: the link to the next item is read before the item is
moved.  No item is lost or moved twice, the ideal chain length that it divides
by is not zero, and afterwards no chain is longer than its expansion
multiplier allows.
-/

namespace EsNotebook.Uthash

variable {κ ν : Type} {items items' : Heap Addr (Item κ ν)} {n i ideal fuel : ℕ}
  {buckets : List UtHashBucket} {xs ys bs cs : List Addr} {css : List (List Addr)} {a x : Addr}
  {r : Item κ ν} {b : UtHashBucket} {p q : Option Addr} {e : Expansion κ ν} {t : UtHashTable}

/-! ## The chains as lists -/

theorem exists_lists {β γ : Type*} {R : ℕ → β → γ → Prop} (l : List β)
    (h : ∀ i b, l[i]? = some b → ∃ c, R i b c) :
    ∃ cs : List γ, cs.length = l.length ∧
      ∀ i b c, l[i]? = some b → cs[i]? = some c → R i b c := by
  induction l generalizing R with
  | nil => exact ⟨[], rfl, by simp⟩
  | cons b l ih =>
      obtain ⟨c, hc⟩ := h 0 b (by simp)
      obtain ⟨cs, hlen, hcs⟩ := ih (R := fun i ↦ R (i + 1)) fun i b' hb' ↦
        h (i + 1) b' (by simpa using hb')
      refine ⟨c :: cs, by simp [hlen], fun i b' c' hb' hc' ↦ ?_⟩
      cases i with
      | zero =>
          obtain rfl : b = b' := by simpa using hb'
          obtain rfl : c = c' := by simpa using hc'
          exact hc
      | succ i => exact hcs i b' c' (by simpa using hb') (by simpa using hc')

/-- The chain of a bucket visits the items `cs`. -/
def BktChain (items : Heap Addr (Item κ ν)) (b : UtHashBucket) (cs : List Addr) : Prop :=
  bktLinks.Linked items none b.hhHead cs none ∧ b.count = cs.length

theorem BucketsOf.exists_chains (h : BucketsOf items n buckets xs) (hn : 0 < n)
    (hxs : ∀ a ∈ xs, ∃ r, items.get? a = some r) :
    ∃ css, List.Forall₂ (BktChain items) buckets css ∧ css.flatten.Nodup ∧
      ∀ a, a ∈ css.flatten ↔ a ∈ xs := by
  obtain ⟨css, hlen, hcss⟩ := exists_lists buckets h.chain
  have hget : ∀ i (hi : i < css.length), ∃ b, buckets[i]? = some b := fun i hi ↦
    ⟨_, List.getElem?_eq_getElem (by rwa [← hlen])⟩
  have hmem : ∀ i (hi : i < css.length), ∀ a, a ∈ css[i] ↔ a ∈ xs ∧ bktOf items n a = some i := by
    intro i hi
    obtain ⟨b, hb⟩ := hget i hi
    exact (hcss i b css[i] hb (List.getElem?_eq_getElem hi)).2.2
  refine ⟨css, ?_, ?_, fun a ↦ ?_⟩
  · refine List.forall₂_iff_get.mpr ⟨hlen.symm, fun i hb hc ↦ ?_⟩
    obtain ⟨hl, hcount, -⟩ := hcss i _ _ (List.getElem?_eq_getElem hb) (List.getElem?_eq_getElem hc)
    exact ⟨hl, hcount⟩
  · refine List.nodup_flatten.mpr ⟨fun cs hcs ↦ ?_, List.pairwise_iff_getElem.mpr ?_⟩
    · obtain ⟨i, hi, rfl⟩ := List.getElem_of_mem hcs
      obtain ⟨b, hb⟩ := hget i hi
      exact (hcss i b _ hb (List.getElem?_eq_getElem hi)).1.chain.nodup
    · intro i j hi hj hij a hai haj
      have hbi := ((hmem i hi a).mp hai).2
      have hbj := ((hmem j hj a).mp haj).2
      exact hij.ne (Option.some.inj (hbi.symm.trans hbj))
  · rw [List.mem_flatten]
    constructor
    · rintro ⟨cs, hcs, ha⟩
      obtain ⟨i, hi, rfl⟩ := List.getElem_of_mem hcs
      exact ((hmem i hi a).mp ha).1
    · intro ha
      obtain ⟨r, hr⟩ := hxs a ha
      have hi : hashToBkt r.hh.hashv n < css.length := by
        rw [hlen, h.length]
        exact hashToBkt_lt hn
      exact ⟨_, List.getElem_mem hi, (hmem _ hi a).mpr ⟨ha, bktOf_of_get? hr⟩⟩

/-! ## Moving the items -/

/-- The items `xs` have been moved. -/
structure Expanding (items : Heap Addr (Item κ ν)) (n ideal : ℕ) (e : Expansion κ ν)
    (xs : List Addr) : Prop where
  buckets : BucketsOf e.items n e.newBuckets xs
  same : bktLinks.SameBut items e.items
  frame : ∀ x, x ∉ xs → e.items.get? x = items.get? x
  mult : ∀ b ∈ e.newBuckets, b.count ≤ ideal ∨ b.expandMult = b.count / ideal

theorem move_spec (he : Expanding items n ideal e xs) (hn : 0 < n) (hideal : 0 < ideal)
    (ha : a ∉ xs) (hr : items.get? a = some r) :
    ∃ e', e.move n ideal a = some e' ∧ Expanding items n ideal e' (a :: xs) := by
  have hr' : e.items.get? a = some r := (he.frame a ha).trans hr
  obtain ⟨b, items', hb, hpush, hs, hbuckets, hframe⟩ := he.buckets.push hn ha hr'
  have hmult : ∀ m, (b.count + 1 ≤ ideal ∨ m = (b.count + 1) / ideal) →
      ∀ c ∈ e.newBuckets.set (hashToBkt r.hh.hashv n) ⟨some a, b.count + 1, m⟩,
        c.count ≤ ideal ∨ c.expandMult = c.count / ideal := by
    intro m hm c hc
    rcases List.mem_or_eq_of_mem_set hc with hc | rfl
    · exact he.mult c hc
    · exact hm
  have hframe' : ∀ x, x ∉ a :: xs → items'.get? x = items.get? x := by
    intro x hx
    rw [hframe x hx, he.frame x fun hmem ↦ hx (List.mem_cons_of_mem a hmem)]
  by_cases hcount : b.count + 1 > ideal
  · refine ⟨⟨items', e.newBuckets.set (hashToBkt r.hh.hashv n)
      ⟨some a, b.count + 1, (b.count + 1) / ideal⟩, e.nonidealItems + 1⟩, ?_,
      hbuckets _, he.same.trans hs, hframe', hmult _ (.inr rfl)⟩
    simp only [Expansion.move, hr', hb, hpush, Option.bind_eq_bind, Option.bind_some]
    rw [if_pos hcount, if_neg hideal.ne']
  · refine ⟨⟨items', e.newBuckets.set (hashToBkt r.hh.hashv n)
      ⟨some a, b.count + 1, b.expandMult⟩, e.nonidealItems⟩, ?_,
      hbuckets _, he.same.trans hs, hframe', hmult _ (.inl (by omega))⟩
    simp only [Expansion.move, hr', hb, hpush, Option.bind_eq_bind, Option.bind_some]
    rw [if_neg hcount]

theorem moveChain_spec (he : Expanding items n ideal e xs) (hn : 0 < n) (hideal : 0 < ideal)
    (hl : bktLinks.Linked items q p cs none) (hdisj : ∀ a ∈ cs, a ∉ xs) (hfuel : cs.length < fuel) :
    ∃ e', Expansion.moveChain n ideal fuel p e = some e' ∧
      Expanding items n ideal e' (cs.reverse ++ xs) := by
  have hnodup := hl.chain.nodup
  induction cs generalizing e xs p q fuel with
  | nil =>
      obtain rfl := Linkage.linked_nil.mp hl
      cases fuel with
      | zero => simp at hfuel
      | succ fuel => exact ⟨e, rfl, by simpa using he⟩
  | cons c cs ih =>
      obtain ⟨hc, hcs⟩ := List.nodup_cons.mp hnodup
      obtain ⟨rfl, r, hr, -, hl⟩ := hl
      cases fuel with
      | zero => simp at hfuel
      | succ fuel =>
          have hcxs := hdisj c (by simp)
          obtain ⟨e₁, hmove, he₁⟩ := move_spec he hn hideal hcxs hr
          obtain ⟨e', hrun, he'⟩ := ih he₁ hl (fun a ha ↦ by
            have hne : a ≠ c := fun h ↦ hc (h ▸ ha)
            simpa [hne] using hdisj a (List.mem_cons_of_mem c ha))
            (Nat.lt_of_succ_lt_succ hfuel) hcs
          have hrc : e.items.get? c = some r := (he.frame c hcxs).trans hr
          refine ⟨e', ?_, by simpa using he'⟩
          change Expansion.moveChain n ideal fuel r.hh.hhNext e₁ = some e' at hrun
          simpa [Expansion.moveChain, hrc, hmove] using hrun

theorem moveBuckets_spec (fuel : ℕ) (hn : 0 < n) (hideal : 0 < ideal)
    (hcss : List.Forall₂ (BktChain items) buckets css) (he : Expanding items n ideal e xs)
    (hdisj : ∀ a ∈ css.flatten, a ∉ xs) (hnodup : css.flatten.Nodup)
    (hfuel : ∀ cs ∈ css, cs.length < fuel) :
    ∃ e', buckets.foldlM (fun e b ↦ Expansion.moveChain n ideal fuel b.hhHead e) e = some e' ∧
      ∃ ys, Expanding items n ideal e' ys ∧ ∀ a, a ∈ ys ↔ a ∈ css.flatten ∨ a ∈ xs := by
  induction hcss generalizing e xs with
  | nil => exact ⟨e, rfl, xs, he, by simp⟩
  | @cons b cs buckets css hb _ ih =>
      rw [List.flatten_cons, List.nodup_append] at hnodup
      obtain ⟨-, hrest, hcs⟩ := hnodup
      obtain ⟨e₁, hmove, he₁⟩ := moveChain_spec he hn hideal hb.1
        (fun a ha ↦ hdisj a (by simp [ha])) (hfuel cs (by simp))
      obtain ⟨e', hrun, ys, he', hys⟩ := ih he₁ (fun a ha ↦ by
        have hacs : a ∉ cs := fun h ↦ hcs a h a ha rfl
        have haxs : a ∉ xs := hdisj a (by rw [List.flatten_cons]; exact List.mem_append_right cs ha)
        simp [hacs, haxs]) hrest fun cs hmem ↦ hfuel cs (List.mem_cons_of_mem _ hmem)
      refine ⟨e', ?_, ys, he', fun a ↦ ?_⟩
      · rw [List.foldlM_cons, hmove]
        exact hrun
      · rw [hys, List.flatten_cons, List.mem_append, List.mem_append, List.mem_reverse]
        tauto

/-! ## The whole expansion -/

theorem idealAfterExpand_pos (hpow : t.numBuckets = 2 ^ t.log2NumBuckets) (hpos : 0 < t.numItems) :
    0 < t.idealAfterExpand := by
  have hdouble : t.numBuckets * 2 = 2 ^ (t.log2NumBuckets + 1) := by rw [hpow, Nat.pow_succ]
  unfold UtHashTable.idealAfterExpand
  rw [hdouble, Nat.and_two_pow_sub_one_eq_mod, Nat.shiftRight_eq_div_pow]
  by_cases hlt : t.numItems < 2 ^ (t.log2NumBuckets + 1)
  · rw [Nat.mod_eq_of_lt hlt, if_pos hpos.ne']
    exact Nat.succ_pos _
  · have hdiv := Nat.div_pos (Nat.le_of_not_lt hlt) (Nat.two_pow_pos _)
    exact Nat.add_pos_left hdiv _

/-- No chain is longer than its bucket's multiplier allows, unless the table
is not to be expanded any more. -/
def ChainsBounded (t : UtHashTable) : Prop :=
  t.noexpand = true ∨ ∀ b ∈ t.buckets,
    b.count ≤ (b.expandMult + 1) * max hashBktCapacityThresh t.idealChainMaxlen

/-- The table for the items `xs`, of which `tail` is the last to be added. -/
structure TableOf (items : Heap Addr (Item κ ν)) (t : UtHashTable) (xs : List Addr) : Prop where
  buckets : BucketsOf items t.numBuckets t.buckets xs
  pow : t.numBuckets = 2 ^ t.log2NumBuckets
  bounded : ChainsBounded t

theorem TableOf.numBuckets_pos (h : TableOf items t xs) : 0 < t.numBuckets := by
  rw [h.pow]
  exact Nat.two_pow_pos _

theorem hashExpandBuckets_spec (hb : BucketsOf items t.numBuckets t.buckets xs)
    (hpow : t.numBuckets = 2 ^ t.log2NumBuckets) (hpos : 0 < t.numItems)
    (hxs : ∀ a ∈ xs, ∃ r, items.get? a = some r) :
    ∃ items' t', hashExpandBuckets items t = some (items', t') ∧
      bktLinks.SameBut items items' ∧ TableOf items' t' xs ∧
      t'.numItems = t.numItems ∧ t'.tail = t.tail := by
  have hn : 0 < t.numBuckets := by
    rw [hpow]
    exact Nat.two_pow_pos _
  have hideal := idealAfterExpand_pos hpow hpos
  obtain ⟨css, hcss, hnodup, hmem⟩ := hb.exists_chains hn hxs
  have hinit : Expanding items (t.numBuckets * 2) t.idealAfterExpand
      ⟨items, List.replicate (t.numBuckets * 2) ⟨none, 0, 0⟩, 0⟩ [] :=
    ⟨bucketsOf_replicate, .refl, fun _ _ ↦ rfl, fun b hb ↦ .inl (by
      obtain rfl := (List.mem_replicate.mp hb).2
      exact Nat.zero_le _)⟩
  obtain ⟨e, hrun, ys, he, hys⟩ := moveBuckets_spec (items.size + 1) (by omega) hideal hcss hinit
    (by simp) hnodup fun cs hcs ↦ by
      refine Nat.lt_succ_of_le (Heap.length_le_size ?_ ?_)
      · exact (List.nodup_flatten.mp hnodup).1 cs hcs
      · intro a ha
        have haxs := (hmem a).mp (List.mem_flatten.mpr ⟨cs, hcs, ha⟩)
        exact Option.isSome_iff_exists.mpr (hxs a haxs)
  have hbuckets : BucketsOf e.items (t.numBuckets * 2) e.newBuckets xs :=
    he.buckets.congr_mem fun a ↦ by simp [hys, hmem]
  refine ⟨e.items, t.expanded e.newBuckets e.nonidealItems, ?_, he.same,
    ⟨hbuckets, ?_, .inr fun b hb ↦ ?_⟩, rfl, rfl⟩
  · simp [hashExpandBuckets, hrun]
  · change t.numBuckets * 2 = 2 ^ (t.log2NumBuckets + 1)
    rw [hpow, Nat.pow_succ]
  · change b.count ≤ (b.expandMult + 1) * max hashBktCapacityThresh t.idealAfterExpand
    rcases he.mult b hb with hle | hmult
    · calc b.count ≤ 1 * t.idealAfterExpand := by rwa [Nat.one_mul]
        _ ≤ (b.expandMult + 1) * max hashBktCapacityThresh t.idealAfterExpand :=
          Nat.mul_le_mul (Nat.le_add_left 1 _) (le_max_right _ _)
    · rw [hmult]
      calc b.count ≤ (b.count / t.idealAfterExpand + 1) * t.idealAfterExpand := by
            rw [Nat.mul_comm]
            exact (Nat.lt_mul_div_succ b.count hideal).le
        _ ≤ _ := Nat.mul_le_mul (Nat.le_refl _) (le_max_right _ _)

end EsNotebook.Uthash
