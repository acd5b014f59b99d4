import EsNotebook.Uthash.Expand

/-!
# What each macro does

A hash is a list of items in the order of the application, and one table as
long as there are items.  Each macro is described by what it does to this
list; none of them reads memory that is not allocated.
-/

namespace EsNotebook.Uthash

variable {κ ν : Type} {hashFcn : κ → BitVec 32} {s s' : Hash κ ν}
  {items items' : Heap Addr (Item κ ν)} {xs ys pre post : List Addr} {a x p : Addr}
  {r : Item κ ν} {t t' : UtHashTable} {key : κ} {b : UtHashBucket}

/-- What the application keeps in the item at an address. -/
def entryAt (items : Heap Addr (Item κ ν)) (a : Addr) : Option (κ × ν) :=
  (items.get? a).map Item.entry

/-- What is not a link in an item. -/
def Item.core (r : Item κ ν) : (κ × ν) × BitVec 32 × Addr := (r.entry, r.hh.hashv, r.hh.tbl)

def coreAt (items : Heap Addr (Item κ ν)) (a : Addr) : Option ((κ × ν) × BitVec 32 × Addr) :=
  (items.get? a).map Item.core

theorem coreAt_of_get? (hr : items.get? a = some r) : coreAt items a = some r.core := by
  simp [coreAt, hr]

theorem coreAt_of_sameBut_app (hs : appLinks.SameBut items items') (a : Addr) :
    coreAt items' a = coreAt items a := by
  have h := congrArg (Option.map Item.core) (hs a)
  rw [Option.map_map, Option.map_map] at h
  exact h

theorem coreAt_of_sameBut_bkt (hs : bktLinks.SameBut items items') (a : Addr) :
    coreAt items' a = coreAt items a := by
  have h := congrArg (Option.map Item.core) (hs a)
  rw [Option.map_map, Option.map_map] at h
  exact h

theorem entryAt_eq_map_coreAt : entryAt items a = (coreAt items a).map Prod.fst := by
  rw [entryAt, coreAt, Option.map_map]
  rfl

theorem entryAt_of_coreAt (h : coreAt items' a = coreAt items a) :
    entryAt items' a = entryAt items a := by
  rw [entryAt_eq_map_coreAt, entryAt_eq_map_coreAt, h]

/-- The items `xs` are linked in the order of the application, and the table
`t` at `p` has the items `ys` in its buckets. -/
structure TableAt (hashFcn : κ → BitVec 32) (s : Hash κ ν) (xs ys : List Addr) (p : Addr)
    (t : UtHashTable) : Prop where
  linked : appLinks.Linked s.items none s.head xs none
  core : ∀ a ∈ xs, ∃ e, coreAt s.items a = some (e, hashFcn e.1, p)
  cells : s.tables.cells = [(p, t)]
  table : TableOf s.items t ys
  tail : xs.getLast? = some t.tail
  count : t.numItems = ys.length

/-- The hash consists of the items `xs`. -/
inductive Represents (hashFcn : κ → BitVec 32) (s : Hash κ ν) : List Addr → Prop
  | empty (hhead : s.head = none) (hcells : s.tables.cells = []) : Represents hashFcn s []
  | table {xs : List Addr} {p : Addr} {t : UtHashTable} (h : TableAt hashFcn s xs xs p t) :
      Represents hashFcn s xs

namespace TableAt

theorem ne_nil (h : TableAt hashFcn s xs ys p t) : xs ≠ [] := by
  rintro rfl
  simpa using h.tail

theorem exists_head (h : TableAt hashFcn s xs ys p t) : ∃ a, s.head = some a ∧ a ∈ xs := by
  obtain ⟨a, rest, rfl⟩ := List.exists_cons_of_ne_nil h.ne_nil
  exact ⟨a, h.linked.1, by simp⟩

theorem exists_get? (h : TableAt hashFcn s xs ys p t) (ha : a ∈ xs) :
    ∃ r, s.items.get? a = some r ∧ r.hh.hashv = hashFcn r.key ∧ r.hh.tbl = p := by
  obtain ⟨e, he⟩ := h.core a ha
  obtain ⟨r, hr, hcore⟩ := Option.map_eq_some_iff.mp he
  obtain ⟨hentry, hv, hp⟩ : r.entry = e ∧ r.hh.hashv = hashFcn e.1 ∧ r.hh.tbl = p := by
    simpa [Item.core] using hcore
  exact ⟨r, hr, by rw [hv, ← hentry]; rfl, hp⟩

theorem tbl_eq (h : TableAt hashFcn s xs ys p t) : s.tbl = some (p, t) := by
  obtain ⟨a, hhead, ha⟩ := h.exists_head
  obtain ⟨r, hr, -, hp⟩ := h.exists_get? ha
  have ht : s.tables.get? p = some t := by simp [Heap.get?, h.cells]
  simp [Hash.tbl, hhead, hr, hp, ht]

theorem congr_get? (h : TableAt hashFcn s xs xs p t)
    (heq : ∀ a ∈ xs, items'.get? a = s.items.get? a) :
    TableAt hashFcn { s with items := items' } xs xs p t where
  linked := h.linked.congr_get? heq
  core a ha := by simpa only [coreAt, heq a ha] using h.core a ha
  cells := h.cells
  table := ⟨h.table.buckets.congr_get? heq, h.table.pow, h.table.bounded⟩
  tail := h.tail
  count := h.count

theorem cells_setTbl (h : s.tables.cells = [(p, t)]) : (s.setTbl p t').tables.cells = [(p, t')] := by
  simp [Hash.setTbl, Heap.modify, h]

end TableAt

namespace Represents

theorem linked (h : Represents hashFcn s xs) : appLinks.Linked s.items none s.head xs none := by
  cases h with
  | empty hhead _ => exact hhead
  | table h => exact h.linked

theorem nodup (h : Represents hashFcn s xs) : xs.Nodup := h.linked.chain.nodup

theorem exists_get? (h : Represents hashFcn s xs) (ha : a ∈ xs) : ∃ r, s.items.get? a = some r :=
  h.linked.exists_get? ha

theorem exists_tableAt (h : Represents hashFcn s xs) (hxs : xs ≠ []) :
    ∃ p t, TableAt hashFcn s xs xs p t := by
  cases h with
  | empty _ _ => exact absurd rfl hxs
  | table h => exact ⟨_, _, h⟩

/-- Only the items of the hash matter. -/
theorem congr_get? (h : Represents hashFcn s xs)
    (heq : ∀ a ∈ xs, items'.get? a = s.items.get? a) :
    Represents hashFcn { s with items := items' } xs := by
  cases h with
  | empty hhead hcells => exact .empty hhead hcells
  | table h => exact .table (h.congr_get? heq)

end Represents

/-! ## Finding and counting -/

theorem hashFind_spec [DecidableEq κ] (h : Represents hashFcn s xs) (key : κ) :
    ∃ o, hashFind hashFcn s key = some o ∧
      ((∃ a ∈ xs, ∃ v, o = some a ∧ entryAt s.items a = some (key, v)) ∨
        (o = none ∧ ∀ a ∈ xs, ∀ v, entryAt s.items a ≠ some (key, v))) := by
  cases h with
  | empty hhead _ => exact ⟨none, by simp [hashFind, hhead], .inr ⟨rfl, by simp⟩⟩
  | @table xs p t h =>
      obtain ⟨hd, hhead, -⟩ := h.exists_head
      have hn := h.table.numBuckets_pos
      obtain ⟨b, hb⟩ := h.table.buckets.exists_bucket (hashToBkt_lt (v := hashFcn key) hn)
      obtain ⟨bs, hl, -, hmem⟩ := h.table.buckets.chain _ b hb
      set stop : Addr → Bool := fun a ↦
        (s.items.get? a).any fun r ↦ r.hh.hashv = hashFcn key ∧ r.key = key with hstop
      have hseek : hashFindInBkt s.items b key (hashFcn key) = some (bs.find? stop) :=
        seek_of_chain hl.chain (Nat.lt_succ_of_le (Heap.length_le_size_of_chain hl.chain))
      refine ⟨bs.find? stop, ?_, ?_⟩
      · simp [hashFind, hhead, h.tbl_eq, hb, hseek]
      cases hfind : bs.find? stop with
      | some a =>
          have ha := (hmem a).mp (List.mem_of_find?_eq_some hfind)
          obtain ⟨r, hr, -⟩ := h.exists_get? ha.1
          have hkey : r.hh.hashv = hashFcn key ∧ r.key = key := by
            simpa [hstop, hr] using List.find?_some hfind
          exact .inl ⟨a, ha.1, r.val, rfl, by simp [entryAt, hr, Item.entry, hkey.2]⟩
      | none =>
          refine .inr ⟨rfl, fun a ha v hentry ↦ ?_⟩
          obtain ⟨r, hr, hv, -⟩ := h.exists_get? ha
          have hkey : r.key = key := by
            simp only [entryAt, hr, Option.map_some, Option.some.injEq, Item.entry,
              Prod.mk.injEq] at hentry
            exact hentry.1
          rw [hkey] at hv
          have habs : a ∈ bs := (hmem a).mpr ⟨ha, by rw [bktOf_of_get? hr, hv]⟩
          have hno := List.find?_eq_none.mp hfind a habs
          simp [hstop, hr, hkey, hv] at hno

theorem hashCount_spec (h : Represents hashFcn s xs) : hashCount s = some xs.length := by
  cases h with
  | empty hhead _ => simp [hashCount, hhead]
  | table h =>
      obtain ⟨hd, hhead, -⟩ := h.exists_head
      simp [hashCount, hhead, h.tbl_eq, h.count]

/-! ## Adding -/

theorem hashAddToBkt_spec (hT : TableOf items t xs) (ha : a ∉ xs) (hr : items.get? a = some r)
    (hpos : 0 < t.numItems) (hxs : ∀ x ∈ xs, ∃ r, items.get? x = some r) :
    ∃ items' t', hashAddToBkt items t (hashToBkt r.hh.hashv t.numBuckets) a = some (items', t') ∧
      bktLinks.SameBut items items' ∧ TableOf items' t' (a :: xs) ∧
      t'.numItems = t.numItems ∧ t'.tail = t.tail := by
  obtain ⟨b, items₁, hb, hpush, hs, hbuckets, -⟩ :=
    hT.buckets.push hT.numBuckets_pos ha hr
  set i := hashToBkt r.hh.hashv t.numBuckets
  set t₁ : UtHashTable := { t with buckets := t.buckets.set i ⟨some a, b.count + 1, b.expandMult⟩ }
    with ht₁
  by_cases hfull : b.count + 1 ≥ (b.expandMult + 1) * hashBktCapacityThresh ∧ t.noexpand = false
  · obtain ⟨items', t', hexpand, hs', htable, hnum, htail⟩ :=
      hashExpandBuckets_spec (t := t₁) (hbuckets b.expandMult) hT.pow hpos fun x hx ↦ by
        refine Option.isSome_iff_exists.mp ?_
        rw [hs.isSome]
        rcases List.mem_cons.mp hx with rfl | hx
        · simp [hr]
        · exact Option.isSome_iff_exists.mpr (hxs x hx)
    refine ⟨items', t', ?_, hs.trans hs', htable, hnum, htail⟩
    simp only [hashAddToBkt, hb, hpush, Option.bind_eq_bind, Option.bind_some, ← ht₁]
    rw [if_pos hfull, hexpand]
  · refine ⟨items₁, t₁, ?_, hs, ⟨hbuckets b.expandMult, hT.pow, ?_⟩, rfl, rfl⟩
    · simp only [hashAddToBkt, hb, hpush, Option.bind_eq_bind, Option.bind_some, ← ht₁]
      rw [if_neg hfull]
    rcases hT.bounded with hno | hbound
    · exact .inl hno
    cases hno : t.noexpand with
    | true => exact .inl hno
    | false =>
        refine .inr fun c hc ↦ ?_
        rcases List.mem_or_eq_of_mem_set hc with hc | rfl
        · exact hbound c hc
        · have hlt : b.count + 1 < (b.expandMult + 1) * hashBktCapacityThresh :=
            Nat.lt_of_not_le fun hge ↦ hfull ⟨hge, hno⟩
          exact hlt.le.trans (Nat.mul_le_mul (Nat.le_refl _) (le_max_left _ _))

theorem hashAppendList_spec (h : TableAt hashFcn s xs xs p t) (ha : a ∉ xs)
    (hr : s.items.get? a = some r) (hv : r.hh.hashv = hashFcn r.key) (hp : r.hh.tbl = p) :
    ∃ s' r', hashAppendList s a = some s' ∧
      TableAt hashFcn s' (xs ++ [a]) xs p { t with tail := a } ∧ s'.items.get? a = some r' ∧
      ∀ x, coreAt s'.items x = coreAt s.items x := by
  obtain ⟨zs, rfl⟩ := List.getLast?_eq_some_iff.mp h.tail
  have hne : a ≠ t.tail := fun heq ↦ ha (by simp [heq])
  set f : Item κ ν → Item κ ν :=
    fun r ↦ { r with hh := { r.hh with next := none, prev := some t.tail } } with hf
  set items₁ := s.items.modify a f with hitems₁
  have h₁ : TableAt hashFcn { s with items := items₁ } (zs ++ [t.tail]) (zs ++ [t.tail]) p t :=
    h.congr_get? fun x hx ↦ Heap.get?_modify_of_ne fun heq ↦ ha (heq ▸ hx)
  obtain ⟨rt, hrt, -⟩ := h₁.exists_get? (a := t.tail) (by simp)
  have hr₁ : items₁.get? a = some (f r) := Heap.get?_modify_of_get? hr
  set items₂ := items₁.modify t.tail (appLinks.setNext (some a)) with hitems₂
  have hr₂ : items₂.get? a = some (f r) := (Heap.get?_modify_of_ne hne).trans hr₁
  have hs : appLinks.SameBut items₁ items₂ :=
    Linkage.SameBut.refl.modify (appLinks.payload_setNext _)
  have hzs : t.tail ∉ zs := fun hmem ↦
    (List.nodup_append.mp h.linked.chain.nodup).2.2 _ hmem _ (by simp) rfl
  have hcore : ∀ x, coreAt items₂ x = coreAt s.items x := by
    intro x
    rw [coreAt_of_sameBut_app hs, coreAt, coreAt, hitems₁, Heap.get?_modify]
    split
    · next hx =>
        subst hx
        simp [hr, hf, Item.core, Item.entry]
    · rfl
  refine ⟨({ s with items := items₂ }).setTbl p { t with tail := a }, f r, ?_,
    ⟨?_, fun x hx ↦ ?_, TableAt.cells_setTbl h.cells, ?_, by simp, h.count⟩, hr₂, hcore⟩
  · simp [hashAppendList, h.tbl_eq, Heap.store_of_get? hr, ← hf, ← hitems₁,
      Heap.store_of_get? hrt, ← hitems₂]
  · have hlast : appLinks.Linked items₂ none s.head (zs ++ [t.tail]) (some a) :=
      h₁.linked.setNext_last hzs
    exact Linkage.linked_append.mpr ⟨some a, hlast, rfl, f r, hr₂, by simp [hf, appLinks], rfl⟩
  · change ∃ e, coreAt items₂ x = _
    rw [hcore]
    rcases List.mem_append.mp hx with hx | hx
    · exact h.core x hx
    · obtain rfl : x = a := by simpa using hx
      exact ⟨r.entry, by rw [coreAt_of_get? hr, Item.core, hv, hp]; rfl⟩
  · exact ⟨h₁.table.buckets.sameBut_app hs, h.table.pow, h.table.bounded⟩

/-- The item `a` is the last one in the order of the application, and all
others are in the buckets already. -/
theorem hashAddLinks_spec (newTbl : Addr) (h : Represents hashFcn s xs) (ha : a ∉ xs)
    (hr : s.items.get? a = some r) (hv : r.hh.hashv = hashFcn r.key) :
    ∃ s' p t r', hashAddLinks s a newTbl = some s' ∧ TableAt hashFcn s' (xs ++ [a]) xs p t ∧
      s'.items.get? a = some r' ∧ ∀ x, entryAt s'.items x = entryAt s.items x := by
  cases h with
  | empty hhead hcells =>
      set f : Item κ ν → Item κ ν :=
        fun r ↦ { r with hh := { r.hh with next := none, prev := none, tbl := newTbl } } with hf
      have hr' : (s.items.modify a f).get? a = some (f r) := Heap.get?_modify_of_get? hr
      refine ⟨⟨some a, s.tables.alloc newTbl (hashMakeTable a), s.items.modify a f⟩, newTbl,
        hashMakeTable a, f r, ?_, ⟨⟨rfl, f r, hr', rfl, rfl⟩, ?_, ?_,
        ⟨bucketsOf_replicate, rfl, .inr ?_⟩, rfl, rfl⟩, hr', ?_⟩
      · simp [hashAddLinks, hhead, Heap.store_of_get? hr, hf]
      · intro x hx
        obtain rfl : x = a := by simpa using hx
        exact ⟨r.entry, by rw [coreAt_of_get? hr', Item.core]; simp [hf, hv, Item.entry]⟩
      · simp [Heap.alloc, hcells]
      · intro b hb
        obtain rfl := (List.mem_replicate.mp hb).2
        exact Nat.zero_le _
      · intro x
        rw [entryAt, entryAt, Heap.get?_modify]
        split
        · next hx =>
            subst hx
            simp [hr, hf, Item.entry]
        · rfl
  | @table xs p t h =>
      obtain ⟨hd, hhead, -⟩ := h.exists_head
      set f : Item κ ν → Item κ ν := fun r ↦ { r with hh := { r.hh with tbl := p } } with hf
      have h₁ : TableAt hashFcn { s with items := s.items.modify a f } xs xs p t :=
        h.congr_get? fun x hx ↦ Heap.get?_modify_of_ne fun heq ↦ ha (heq ▸ hx)
      obtain ⟨s', r', happend, htable, hr', hcore⟩ :=
        hashAppendList_spec h₁ ha (Heap.get?_modify_of_get? hr) hv rfl
      refine ⟨s', p, _, r', ?_, htable, hr', fun x ↦ ?_⟩
      · rw [hhead] at happend
        simp [hashAddLinks, hhead, h.tbl_eq, Heap.store_of_get? hr, ← hf, happend]
      · rw [entryAt_of_coreAt (hcore x), entryAt, entryAt, Heap.get?_modify]
        split
        · next hx =>
            subst hx
            simp [hr, hf, Item.entry]
        · rfl

theorem hashAdd_spec (newTbl : Addr) (h : Represents hashFcn s xs) (ha : a ∉ xs)
    (hr : s.items.get? a = some r) :
    ∃ s', hashAdd hashFcn s a newTbl = some s' ∧ Represents hashFcn s' (xs ++ [a]) ∧
      ∀ x, entryAt s'.items x = entryAt s.items x := by
  set f : Item κ ν → Item κ ν := fun r ↦ { r with hh := { r.hh with hashv := hashFcn r.key } }
    with hf
  have h₁ : Represents hashFcn { s with items := s.items.modify a f } xs :=
    h.congr_get? fun x hx ↦ Heap.get?_modify_of_ne fun heq ↦ ha (heq ▸ hx)
  obtain ⟨s₁, p, t, r₁, hlinks, htable, hr₁, hentry⟩ :=
    hashAddLinks_spec newTbl h₁ ha (Heap.get?_modify_of_get? hr) rfl
  have hentry' : ∀ x, entryAt s₁.items x = entryAt s.items x := by
    intro x
    rw [hentry, entryAt, entryAt, Heap.get?_modify]
    split
    · next hx =>
        subst hx
        simp [hr, hf, Item.entry]
    · rfl
  obtain ⟨r₂, hr₂, hv₂, -⟩ := htable.exists_get? (a := a) (by simp)
  obtain rfl : r₁ = r₂ := Option.some.inj (hr₁.symm.trans hr₂)
  have hkey : r₁.key = r.key := by
    have hself := hentry' a
    rw [entryAt, entryAt, hr₁, hr] at hself
    exact congrArg Prod.fst (Option.some.inj hself)
  have hT : TableOf s₁.items { t with numItems := t.numItems + 1 } xs :=
    ⟨htable.table.buckets, htable.table.pow, htable.table.bounded⟩
  obtain ⟨items', t', hbkt, hs, htable', hnum, htail⟩ :=
    hashAddToBkt_spec hT ha hr₁ (Nat.succ_pos _) fun x hx ↦ by
      obtain ⟨r, hr, -⟩ := htable.exists_get? (a := x) (by simp [hx])
      exact ⟨r, hr⟩
  rw [hv₂, hkey] at hbkt
  refine ⟨({ s₁ with items := items' }).setTbl p t', ?_, .table (p := p) (t := t')
    ⟨linked_app_of_sameBut hs htable.linked, fun x hx ↦ ?_, TableAt.cells_setTbl htable.cells,
      ⟨htable'.buckets.congr_mem fun x ↦ by simp [or_comm], htable'.pow, htable'.bounded⟩,
      ?_, ?_⟩, fun x ↦ ?_⟩
  · simp only [hashAdd, hr, Heap.store_of_get? hr, Option.bind_eq_bind, Option.bind_some]
    rw [hlinks]
    simp [htable.tbl_eq, hbkt]
  · change ∃ e, coreAt items' x = _
    rw [coreAt_of_sameBut_bkt hs]
    exact htable.core x hx
  · rw [htail]
    exact htable.tail
  · rw [hnum]
    change t.numItems + 1 = _
    rw [htable.count, List.length_append, List.length_singleton]
  · rw [← hentry' x]
    exact entryAt_of_coreAt (coreAt_of_sameBut_bkt hs x)

/-! ## Deleting -/

/-- The neighbours of an item are linked to each other. -/
theorem TableAt.bypass {tail : Addr} (h : TableAt hashFcn s (pre ++ a :: post) ys p t)
    (htail : (pre ++ post).getLast? = some tail)
    (hcells : s'.tables.cells = [(p, { t with tail := tail })])
    (hhead : s'.head = if pre = [] then post.head? else s.head)
    (hitems : s'.items = appLinks.bypass s.items pre.getLast? post.head?) :
    TableAt hashFcn s' (pre ++ post) ys p { t with tail := tail } := by
  have hs : appLinks.SameBut s.items s'.items := hitems ▸ .bypass _ _
  refine ⟨?_, fun x hx ↦ ?_, hcells, ⟨h.table.buckets.sameBut_app hs, h.table.pow,
    h.table.bounded⟩, htail, h.count⟩
  · rw [hhead, hitems]
    exact h.linked.bypass h.linked.chain.nodup
  · rw [coreAt_of_sameBut_app hs]
    refine h.core x ?_
    rw [List.mem_append] at hx ⊢
    exact hx.imp_right (List.mem_cons_of_mem a)

theorem hashDeleteLinks_spec (h : TableAt hashFcn s (pre ++ a :: post) ys p t)
    (hr : s.items.get? a = some r) (hne : pre ++ post ≠ []) :
    ∃ s' tail, hashDeleteLinks s a r = some s' ∧
      TableAt hashFcn s' (pre ++ post) ys p { t with tail := tail } ∧
      appLinks.SameBut s.items s'.items := by
  have hnodup : (pre ++ a :: post).Nodup := h.linked.chain.nodup
  obtain ⟨r', hr', hprev, hnext⟩ := h.linked.get?
  obtain rfl : r = r' := Option.some.inj (hr.symm.trans hr')
  rw [Option.or_none] at hprev
  change r.hh.prev = pre.getLast? at hprev
  change r.hh.next = post.head? at hnext
  have hget : ∀ x ∈ pre ++ a :: post, ∃ r, s.items.get? x = some r := fun x hx ↦
    h.linked.exists_get? hx
  have htbl := h.tbl_eq
  cases post with
  | nil =>
      -- the last item goes, so the one before it is the new tail
      obtain ⟨zs, y, rfl⟩ := (List.eq_nil_or_concat pre).resolve_left (by simpa using hne)
      rw [List.concat_eq_append] at *
      have htail : t.tail = a := by simpa using h.tail.symm
      obtain ⟨ry, hry⟩ := hget y (by simp)
      have hprev' : r.hh.prev = some y := by simpa using hprev
      refine ⟨{ s.setTbl p { t with tail := y } with
        items := s.items.modify y (appLinks.setNext none) }, y, ?_,
        h.bypass (by simp) (TableAt.cells_setTbl h.cells) (by simp [Hash.setTbl])
          (by simp [Linkage.bypass, Linkage.setBack, Linkage.setForward]),
        Linkage.SameBut.refl.modify (appLinks.payload_setNext none)⟩
      simp [hashDeleteLinks, htbl, htail, hprev', hnext, Hash.setTbl, Heap.store_of_get? hry]
  | cons z zs =>
      obtain ⟨tail, htail⟩ : ∃ tail, (z :: zs).getLast? = some tail :=
        ⟨_, List.getLast?_eq_some_getLast (List.cons_ne_nil z zs)⟩
      have htail' : t.tail = tail := by
        have hlast := h.tail
        rw [List.getLast?_append_of_ne_nil _ (by simp), List.getLast?_cons_cons, htail] at hlast
        exact (Option.some.inj hlast).symm
      have htaila : t.tail ≠ a := by
        rintro rfl
        have hmem := List.mem_of_getLast? (htail' ▸ htail)
        exact (List.nodup_cons.mp (List.nodup_append.mp hnodup).2.1).1 hmem
      subst htail'
      obtain ⟨rz, hrz⟩ := hget z (by simp)
      have hnext' : r.hh.next = some z := hnext
      have hlast : (pre ++ z :: zs).getLast? = some t.tail := by
        rw [List.getLast?_append_of_ne_nil _ (by simp), htail]
      rcases List.eq_nil_or_concat pre with rfl | ⟨ws, y, rfl⟩
      · have hprev' : r.hh.prev = none := hprev
        refine ⟨{ s with head := some z, items := s.items.modify z (appLinks.setPrev none) },
          t.tail, ?_, h.bypass hlast h.cells rfl rfl,
          Linkage.SameBut.refl.modify (appLinks.payload_setPrev none)⟩
        simp [hashDeleteLinks, htbl, htaila, hprev', hnext', Heap.store_of_get? hrz]
      · rw [List.concat_eq_append] at *
        have hprev' : r.hh.prev = some y := by simpa using hprev
        obtain ⟨ry, hry⟩ := hget y (by simp)
        obtain ⟨rz', hrz'⟩ : ∃ r', (s.items.modify y (appLinks.setNext (some z))).get? z
            = some r' := Option.isSome_iff_exists.mp (by rw [Heap.isSome_get?_modify, hrz]; rfl)
        set items₁ := s.items.modify y (appLinks.setNext (some z)) with hitems₁
        refine ⟨{ s with items := items₁.modify z (appLinks.setPrev (some y)) }, t.tail, ?_,
          h.bypass hlast h.cells (by simp)
            (by simp [Linkage.bypass, Linkage.setBack, Linkage.setForward, hitems₁]),
          (Linkage.SameBut.refl.modify (appLinks.payload_setNext _)).modify
            (appLinks.payload_setPrev _)⟩
        simp [hashDeleteLinks, htbl, htaila, hprev', hnext', Heap.store_of_get? hry, ← hitems₁,
          Heap.store_of_get? hrz']

theorem hashDelete_spec (h : Represents hashFcn s xs) (ha : a ∈ xs) :
    ∃ s', hashDelete s a = some s' ∧ Represents hashFcn s' (xs.erase a) ∧
      ∀ x, entryAt s'.items x = entryAt s.items x := by
  obtain ⟨p, t, ht⟩ := h.exists_tableAt (List.ne_nil_of_mem ha)
  obtain ⟨r, hr, -⟩ := ht.exists_get? ha
  have hnodup := h.nodup
  obtain ⟨pre, post, rfl⟩ := List.append_of_mem ha
  have hapre : a ∉ pre := fun hmem ↦ (List.nodup_append.mp hnodup).2.2 a hmem a (by simp) rfl
  have herase : (pre ++ a :: post).erase a = pre ++ post := by
    rw [List.erase_append_right _ hapre, List.erase_cons_head]
  obtain ⟨r', hr', hprev, hnext⟩ := ht.linked.get?
  obtain rfl : r = r' := Option.some.inj (hr.symm.trans hr')
  rw [Option.or_none] at hprev
  change r.hh.prev = pre.getLast? at hprev
  change r.hh.next = post.head? at hnext
  have hsole : (r.hh.prev = none ∧ r.hh.next = none) ↔ pre ++ post = [] := by
    rw [hprev, hnext, List.getLast?_eq_none_iff, List.head?_eq_none_iff, List.append_eq_nil_iff]
  rw [herase]
  by_cases hnil : pre ++ post = []
  · refine ⟨{ s with head := none, tables := s.tables.free p }, ?_, ?_, fun _ ↦ rfl⟩
    · simp [hashDelete, hr, hsole.mpr hnil, ht.tbl_eq]
    · rw [hnil]
      exact .empty rfl (by simp [Heap.free, ht.cells])
  obtain ⟨s₁, tail, hlinks, ht₁, hs₁⟩ := hashDeleteLinks_spec ht hr hnil
  obtain ⟨r₁, hr₁, hpayload⟩ := hs₁.exists_get? hr
  have hv := congrArg (fun r : Item κ ν ↦ r.hh.hashv) hpayload
  change r₁.hh.hashv = r.hh.hashv at hv
  obtain ⟨b, b', items', hb, hdel, hs, hle, hmult, hbuckets, -⟩ :=
    ht₁.table.buckets.del ht₁.table.numBuckets_pos hnodup ha hr₁
  rw [hv] at hb hbuckets
  rw [herase] at hbuckets
  set t₁ : UtHashTable := { t with tail := tail }
  set t₂ : UtHashTable :=
    { t₁ with
      buckets := t₁.buckets.set (hashToBkt r.hh.hashv t₁.numBuckets) b'
      numItems := t₁.numItems - 1 } with ht₂
  refine ⟨({ s₁ with items := items' }).setTbl p t₂, ?_, .table (p := p) (t := t₂)
    ⟨linked_app_of_sameBut hs ht₁.linked, fun x hx ↦ ?_, TableAt.cells_setTbl ht₁.cells,
      ⟨hbuckets, ht₁.table.pow, ?_⟩, ht₁.tail, ?_⟩, fun x ↦ ?_⟩
  · simp [hashDelete, hr, hsole, hnil, hlinks, ht₁.tbl_eq, hb, hdel, ← ht₂]
  · change ∃ e, coreAt items' x = _
    rw [coreAt_of_sameBut_bkt hs]
    exact ht₁.core x hx
  · refine ht₁.table.bounded.imp_right fun hbound c hc ↦ ?_
    rcases List.mem_or_eq_of_mem_set hc with hc | rfl
    · exact hbound c hc
    · rw [hmult]
      exact hle.trans (hbound b (List.mem_of_getElem? hb))
  · change t.numItems - 1 = _
    rw [ht.count]
    simp only [List.length_append, List.length_cons]
    omega
  · rw [← entryAt_of_coreAt (coreAt_of_sameBut_app hs₁ x)]
    exact entryAt_of_coreAt (coreAt_of_sameBut_bkt hs x)

end EsNotebook.Uthash
