import EsNotebook.Uthash.Book

/-!
# What the functions do to the book

The hash of the program stores the book: its items, in the order of the
application, are the users of the book, and nothing else is allocated.  Each
function of `uthash_sample.c` is described by what it does to the book.
-/

namespace EsNotebook.Uthash

variable {users users' : Hash Id (List Char)} {items : Heap Addr MyStruct} {xs ys rest : List Addr}
  {l l' : List User} {a b x : Addr} {r : MyStruct} {id : Id} {name name' : List Char} {m : Malloc}
  {f : MyStruct → MyStruct} {u v : User} {fuel : ℕ}

/-! ## Writing a name -/

/-- A write that keeps the key and the hash handle. -/
theorem Represents.modify_of_hh {s : Hash Id (List Char)} (h : Represents hashInt s xs)
    (hhh : ∀ r, (f r).hh = r.hh) (hkey : ∀ r, (f r).key = r.key) :
    Represents hashInt { s with items := s.items.modify a f } xs := by
  have hcell : ∀ x r, s.items.get? x = some r →
      ∃ r', (s.items.modify a f).get? x = some r' ∧ r'.hh = r.hh ∧ r'.key = r.key := by
    intro x r hr
    by_cases hx : x = a
    · subst hx
      exact ⟨f r, Heap.get?_modify_of_get? hr, hhh r, hkey r⟩
    · exact ⟨r, by rw [Heap.get?_modify_of_ne hx, hr], rfl, rfl⟩
  have hbkt : ∀ n x, bktOf (s.items.modify a f) n x = bktOf s.items n x := by
    intro n x
    rw [bktOf, bktOf, Heap.get?_modify]
    split
    · next hx =>
        subst hx
        rw [Option.map_map]
        exact Option.map_congr fun r _ ↦ by simp [hhh]
    · rfl
  cases h with
  | empty hhead hcells => exact .empty hhead hcells
  | @table xs p t h =>
      refine .table (p := p) (t := t) ⟨?_, fun x hx ↦ ?_, h.cells,
        ⟨⟨h.table.buckets.length, fun i b hb ↦ ?_⟩, h.table.pow, h.table.bounded⟩, h.tail, h.count⟩
      · exact h.linked.modify_of_links (fun r ↦ congrArg UtHashHandle.next (hhh r))
          fun b r hback ↦ (congrArg UtHashHandle.prev (hhh r)).trans hback
      · obtain ⟨r, hr, hv, hp⟩ := h.exists_get? hx
        obtain ⟨r', hr', hhh', hkey'⟩ := hcell x r hr
        exact ⟨r'.entry, by rw [coreAt_of_get? hr', Item.core, hhh', hv, hp, ← hkey']; rfl⟩
      · obtain ⟨bs, hl, hcount, hmem⟩ := h.table.buckets.chain i b hb
        refine ⟨bs, hl.modify_of_links (fun r ↦ congrArg UtHashHandle.hhNext (hhh r))
          (fun b r hback ↦ (congrArg UtHashHandle.hhPrev (hhh r)).trans hback), hcount, ?_⟩
        simpa only [hbkt] using hmem

/-! ## The store -/

/-- The items `xs` of the hash are the users of the book. -/
structure Stores (users : Hash Id (List Char)) (xs : List Addr) (l : List User) : Prop where
  hash : Represents hashInt users xs
  entries : xs.map (entryAt users.items) = l.map some
  keys : (l.map Prod.fst).Nodup
  owned : ∀ a, (users.items.get? a).isSome → a ∈ xs

namespace Stores

theorem nil : Stores ⟨none, ⟨[]⟩, ⟨[]⟩⟩ [] [] where
  hash := .empty rfl rfl
  entries := rfl
  keys := List.nodup_nil
  owned _ ha := absurd ha (by simp [Heap.get?])

theorem length_eq (h : Stores users xs l) : xs.length = l.length := by
  simpa using congrArg List.length h.entries

theorem exists_user (h : Stores users xs l) (ha : a ∈ xs) :
    ∃ u ∈ l, entryAt users.items a = some u := by
  have hmem : entryAt users.items a ∈ l.map some := h.entries ▸ List.mem_map_of_mem ha
  obtain ⟨u, hu, heq⟩ := List.mem_map.mp hmem
  exact ⟨u, hu, heq.symm⟩

theorem exists_item (h : Stores users xs l) (hu : u ∈ l) :
    ∃ a ∈ xs, entryAt users.items a = some u := by
  have hmem : some u ∈ xs.map (entryAt users.items) := by
    rw [h.entries]
    exact List.mem_map_of_mem hu
  exact List.mem_map.mp hmem

/-- Only one item has a number. -/
theorem eq_of_entryAt (h : Stores users xs l) (ha : a ∈ xs) (hb : b ∈ xs)
    (hea : entryAt users.items a = some u) (heb : entryAt users.items b = some v)
    (huv : u.1 = v.1) : a = b := by
  have hkeys : (xs.map fun x ↦ (entryAt users.items x).map Prod.fst).Nodup := by
    have hmap : (xs.map fun x ↦ (entryAt users.items x).map Prod.fst)
        = (l.map Prod.fst).map some := by
      rw [List.map_map, ← Function.comp_def, ← List.map_map, h.entries, List.map_map]
      rfl
    rw [hmap]
    exact h.keys.map (Option.some_injective _)
  refine List.inj_on_of_nodup_map hkeys ha hb ?_
  simp [hea, heb, huv]

theorem mem_iff (h : Stores users xs l) : a ∈ xs ↔ (users.items.get? a).isSome :=
  ⟨fun ha ↦ Option.isSome_iff_exists.mpr (h.hash.exists_get? ha), h.owned a⟩

theorem head_eq (h : Stores users xs l) : users.head = xs.head? := h.hash.linked.head?

end Stores

theorem isSome_entryAt : (entryAt items a).isSome = (items.get? a).isSome := by
  rw [entryAt, Option.isSome_map]

theorem isSome_get?_of_entryAt {items' : Heap Addr MyStruct}
    (h : ∀ x, entryAt items' x = entryAt items x) (x : Addr) :
    (items'.get? x).isSome = (items.get? x).isSome := by
  rw [← isSome_entryAt, ← isSome_entryAt, h]

/-! ## Finding, naming, adding -/

theorem findUser_spec (h : Stores users xs l) (id : Id) :
    ∃ o, findUser users id = some o ∧
      ((∃ a ∈ xs, ∃ name, o = some a ∧ entryAt users.items a = some (id, name) ∧
          l.lookup id = some name) ∨
        (o = none ∧ id ∉ l.map Prod.fst)) := by
  obtain ⟨o, hfind, hcase⟩ := hashFind_spec h.hash id
  refine ⟨o, hfind, hcase.imp ?_ ?_⟩
  · rintro ⟨a, ha, name, rfl, hentry⟩
    obtain ⟨u, hu, heq⟩ := h.exists_user ha
    obtain rfl : u = (id, name) := Option.some.inj (heq.symm.trans hentry)
    exact ⟨a, ha, name, rfl, hentry, (Book.lookup_eq_some_iff h.keys).mpr hu⟩
  · rintro ⟨rfl, hno⟩
    refine ⟨rfl, fun hmem ↦ ?_⟩
    obtain ⟨u, hu, rfl⟩ := List.mem_map.mp hmem
    obtain ⟨a, ha, hentry⟩ := h.exists_item hu
    exact hno a ha u.2 hentry

theorem strcpyName_of_fits (hfits : name.length < nameSize) (ha : (users.items.get? a).isSome) :
    strcpyName users a name
      = some { users with items := users.items.modify a fun r ↦ { r with val := name } } := by
  obtain ⟨r, hr⟩ := Option.isSome_iff_exists.mp ha
  rw [strcpyName, if_pos hfits, Heap.store_of_get? hr]
  rfl

theorem strcpyName_of_not_fits (hfits : ¬name.length < nameSize) : strcpyName users a name = none :=
  if_neg hfits

theorem entryAt_rename :
    entryAt (items.modify a fun r ↦ { r with val := name }) x
      = if x = a then (entryAt items a).map fun u ↦ (u.1, name) else entryAt items x := by
  rw [entryAt, Heap.get?_modify]
  split
  · rw [entryAt, Option.map_map, Option.map_map]
    rfl
  · rfl

theorem rename_spec (h : Stores users xs l) (ha : a ∈ xs)
    (hentry : entryAt users.items a = some (id, name')) (hfits : name.length < nameSize) :
    ∃ users', strcpyName users a name = some users' ∧ Stores users' xs (Book.put l id name) := by
  obtain ⟨u, hu, heq⟩ := h.exists_user ha
  obtain rfl : u = (id, name') := Option.some.inj (heq.symm.trans hentry)
  have hid : id ∈ l.map Prod.fst := List.mem_map.mpr ⟨_, hu, rfl⟩
  refine ⟨_, strcpyName_of_fits hfits (h.mem_iff.mp ha),
    h.hash.modify_of_hh (fun _ ↦ rfl) (fun _ ↦ rfl), ?_, Book.nodup_put h.keys, fun x hx ↦ ?_⟩
  · rw [Book.put_of_mem hid, List.map_map]
    calc xs.map (entryAt (users.items.modify a fun r ↦ { r with val := name }))
        = (xs.map (entryAt users.items)).map
            (Option.map fun u ↦ if u.1 = id then (id, name) else u) := by
          rw [List.map_map]
          refine List.map_congr_left fun x hx ↦ ?_
          rw [entryAt_rename, Function.comp_apply]
          split
          · next hxa => simp [hxa, hentry]
          · next hxa =>
              obtain ⟨v, -, hv⟩ := h.exists_user hx
              have hne : v.1 ≠ id := fun hvid ↦ hxa (h.eq_of_entryAt hx ha hv hentry hvid)
              simp [hv, hne]
      _ = l.map (some ∘ fun u ↦ if u.1 = id then (id, name) else u) := by
          rw [h.entries, List.map_map]
          rfl
  · exact h.owned x (by rwa [Heap.isSome_get?_modify] at hx)

theorem insert_spec (h : Stores users xs l) (hm : m.Fresh users) (hid : id ∉ l.map Prod.fst)
    (name : List Char) :
    ∃ users₁, hashAdd hashInt { users with items := users.items.alloc m.user ⟨id, m.junkName, m.junk⟩ }
        m.user m.tbl = some users₁ ∧
      (name.length < nameSize → ∃ users', strcpyName users₁ m.user name = some users' ∧
        Stores users' (xs ++ [m.user]) (Book.put l id name)) := by
  set items₁ := users.items.alloc m.user ⟨id, m.junkName, m.junk⟩ with hitems₁
  have hfresh : m.user ∉ xs := fun hmem ↦ by
    have hsome := h.mem_iff.mp hmem
    rw [hm.1] at hsome
    cases hsome
  have hself : items₁.get? m.user = some ⟨id, m.junkName, m.junk⟩ := Heap.get?_alloc_self
  have hother : ∀ x, x ≠ m.user → items₁.get? x = users.items.get? x := fun x hx ↦
    Heap.get?_alloc_of_ne hx
  have h₁ : Represents hashInt { users with items := items₁ } xs :=
    h.hash.congr_get? fun x hx ↦ hother x fun heq ↦ hfresh (heq ▸ hx)
  obtain ⟨users₁, hadd, hrep, hentry⟩ := hashAdd_spec m.tbl h₁ hfresh hself
  have hsome := isSome_get?_of_entryAt hentry
  have hnew : (users₁.items.get? m.user).isSome := by rw [hsome, hself]; rfl
  refine ⟨users₁, hadd, fun hfits ↦ ⟨_, strcpyName_of_fits hfits hnew,
    hrep.modify_of_hh (fun _ ↦ rfl) (fun _ ↦ rfl), ?_, Book.nodup_put h.keys, fun x hx ↦ ?_⟩⟩
  · have hxs : xs.map (entryAt (users₁.items.modify m.user fun r ↦ { r with val := name }))
        = l.map some := by
      rw [← h.entries]
      refine List.map_congr_left fun x hx ↦ ?_
      have hne : x ≠ m.user := fun heq ↦ hfresh (heq ▸ hx)
      rw [entryAt_rename, if_neg hne, hentry, entryAt, entryAt, hother x hne]
    have hnamed : entryAt (users₁.items.modify m.user fun r ↦ { r with val := name }) m.user
        = some (id, name) := by
      have hself' : entryAt items₁ m.user = some (id, m.junkName) := by
        rw [entryAt, hself]
        rfl
      rw [entryAt_rename, if_pos rfl, hentry, hself']
      rfl
    rw [List.map_append, hxs, Book.put_of_notMem hid, List.map_append]
    simp [hnamed]
  · rw [Heap.isSome_get?_modify, hsome] at hx
    by_cases hne : x = m.user
    · simp [hne]
    · change (items₁.get? x).isSome at hx
      rw [hother x hne] at hx
      exact List.mem_append_left _ (h.owned x hx)

theorem addUser_spec (h : Stores users xs l) (hm : m.Fresh users) (id : Id)
    (hfits : name.length < nameSize) :
    ∃ users' ys, addUser users id name m = some users' ∧ Stores users' ys (Book.put l id name) := by
  obtain ⟨o, hfind, ⟨a, ha, name', rfl, hentry, -⟩ | ⟨rfl, hid⟩⟩ := findUser_spec h id
  · obtain ⟨users', hcopy, hstores⟩ := rename_spec h ha hentry hfits
    exact ⟨users', xs, by simpa [addUser, hfind] using hcopy, hstores⟩
  · obtain ⟨users₁, hadd, hname⟩ := insert_spec h hm hid name
    obtain ⟨users', hcopy, hstores⟩ := hname hfits
    exact ⟨users', _, by simpa [addUser, hfind, hadd] using hcopy, hstores⟩

theorem addUser_of_not_fits (h : Stores users xs l) (hm : m.Fresh users) (id : Id)
    (hfits : ¬name.length < nameSize) : addUser users id name m = none := by
  obtain ⟨o, hfind, ⟨a, -, -, rfl, -, -⟩ | ⟨rfl, hid⟩⟩ := findUser_spec h id
  · simp [addUser, hfind, strcpyName_of_not_fits hfits]
  · obtain ⟨users₁, hadd, -⟩ := insert_spec h hm hid name
    simp [addUser, hfind, hadd, strcpyName_of_not_fits hfits]

/-! ## Deleting -/

theorem deleteUser_spec (h : Stores users xs l) (ha : a ∈ xs)
    (hentry : entryAt users.items a = some u) :
    ∃ users', deleteUser users a = some users' ∧
      Stores users' (xs.erase a) (Book.remove l u.1) := by
  obtain ⟨users₁, hdel, hrep, hsame⟩ := hashDelete_spec h.hash ha
  have hnodup := h.hash.nodup
  have hne : ∀ x ∈ xs.erase a, x ≠ a := by
    rintro x hx rfl
    exact ((List.Nodup.mem_erase_iff hnodup).mp hx).1 rfl
  have hget : ∀ x ∈ xs.erase a, (users₁.items.free a).get? x = users₁.items.get? x := fun x hx ↦
    Heap.get?_free_of_ne (hne x hx)
  refine ⟨{ users₁ with items := users₁.items.free a }, by simp [deleteUser, hdel],
    hrep.congr_get? hget, ?_, Book.nodup_remove h.keys, fun x hx ↦ ?_⟩
  · -- an item is the one to delete exactly if its number is
    have hiff : ∀ x ∈ xs, (decide (x ≠ a) = true ↔
        ((entryAt users.items x).any fun v ↦ v.1 ≠ u.1) = true) := by
      intro x hx
      obtain ⟨v, -, hv⟩ := h.exists_user hx
      rw [decide_eq_true_eq, hv, Option.any_some, decide_eq_true_eq]
      refine not_congr ⟨?_, fun hvu ↦ h.eq_of_entryAt hx ha hv hentry hvu⟩
      rintro rfl
      rw [hv] at hentry
      exact congrArg Prod.fst (Option.some.inj hentry)
    calc (xs.erase a).map (entryAt (users₁.items.free a))
        = (xs.erase a).map (entryAt users.items) := by
          refine List.map_congr_left fun x hx ↦ ?_
          rw [entryAt, hget x hx, ← hsame]
          rfl
      _ = (xs.filter fun x ↦ (entryAt users.items x).any fun v ↦ v.1 ≠ u.1).map
            (entryAt users.items) := by
          rw [hnodup.erase_eq_filter, List.filter_congr fun x hx ↦ Bool.eq_iff_iff.mpr ?_]
          simpa using hiff x hx
      _ = (Book.remove l u.1).map some := by
          have hfilter := congrArg (List.filter fun o ↦ o.any fun v : User ↦ v.1 ≠ u.1) h.entries
          rw [List.filter_map, List.filter_map] at hfilter
          exact hfilter
  · by_cases hxa : x = a
    · subst hxa
      rw [Heap.get?_free_self] at hx
      cases hx
    · rw [Heap.get?_free_of_ne hxa, isSome_get?_of_entryAt hsame] at hx
      exact (List.mem_erase_of_ne hxa).mpr (h.owned x hx)

theorem Stores.nextOf_head (h : Stores users xs l) :
    nextOf users xs.head? = some xs.tail.head? := by
  cases xs with
  | nil => rfl
  | cons a xs =>
      obtain ⟨-, r, hr, -, hl⟩ := h.hash.linked
      have hnext : r.hh.next = xs.head? := hl.head?
      simp [nextOf, hr, hnext]

/-- The loop has read which item is next before it deletes one. -/
theorem deleteAllLoop_spec (h : Stores users xs l) (hfuel : xs.length < fuel) :
    ∃ users', deleteAllLoop fuel xs.head? xs.tail.head? users = some users' ∧
      Stores users' [] [] := by
  induction xs generalizing users l fuel with
  | nil =>
      obtain rfl : l = [] := by simpa using h.length_eq.symm
      cases fuel with
      | zero => simp at hfuel
      | succ fuel => exact ⟨users, rfl, h⟩
  | cons a xs ih =>
      cases fuel with
      | zero => simp at hfuel
      | succ fuel =>
          obtain ⟨u, -, hu⟩ := h.exists_user (a := a) (by simp)
          obtain ⟨users₁, hdel, h₁⟩ := deleteUser_spec h (by simp) hu
          rw [List.erase_cons_head] at h₁
          obtain ⟨users', hrun, hempty⟩ := ih h₁ (Nat.lt_of_succ_lt_succ hfuel)
          exact ⟨users', by simpa [deleteAllLoop, hdel, h₁.nextOf_head] using hrun, hempty⟩

theorem deleteAll_spec (h : Stores users xs l) :
    ∃ users', deleteAll users = some users' ∧ Stores users' [] [] := by
  obtain ⟨users', hrun, hempty⟩ := deleteAllLoop_spec h
    (Nat.lt_succ_of_le (Heap.length_le_size_of_chain h.hash.linked.chain))
  refine ⟨users', ?_, hempty⟩
  simpa [deleteAll, h.head_eq, h.nextOf_head] using hrun

/-! ## Sorting, printing, counting -/

theorem hashSrt_stores (h : Stores users xs l) (cmpfcn : User → User → ℤ) :
    ∃ users' ys, hashSrt cmpfcn users = some users' ∧
      Stores users' ys (mergePasses (cmpLe cmpfcn) 1 l) := by
  obtain ⟨users', ys, hsort, hrep, hsame, hperm, hentries⟩ := hashSrt_spec h.hash cmpfcn h.entries
  refine ⟨users', ys, hsort, hrep, ?_, ?_, fun x hx ↦ ?_⟩
  · rw [← hentries]
    exact List.map_congr_left fun x _ ↦ hsame x
  · exact ((mergePasses_perm Nat.one_pos l).map Prod.fst).nodup_iff.mpr h.keys
  · rw [isSome_get?_of_entryAt hsame] at hx
    exact hperm.mem_iff.mpr (h.owned x hx)

theorem printLoop_spec {p q : Option Addr} (hl : appLinks.Linked users.items q p xs none)
    (hentries : xs.map (entryAt users.items) = l.map some) (hfuel : xs.length < fuel) :
    printLoop users fuel p = some (l.map fun u ↦ .user u.1 u.2) := by
  induction xs generalizing p q l fuel with
  | nil =>
      obtain rfl := Linkage.linked_nil.mp hl
      obtain rfl : l = [] := by simpa using hentries.symm
      cases fuel with
      | zero => simp at hfuel
      | succ fuel => rfl
  | cons x xs ih =>
      obtain ⟨rfl, r, hr, -, hl⟩ := hl
      cases l with
      | nil => simp at hentries
      | cons u l =>
          cases fuel with
          | zero => simp at hfuel
          | succ fuel =>
              obtain ⟨hu, hrest⟩ := List.cons.inj hentries
              have hentry : r.entry = u := by simpa [entryAt, hr] using hu
              have hloop := ih hl hrest (Nat.lt_of_succ_lt_succ hfuel)
              change printLoop users fuel r.hh.next = _ at hloop
              rw [← hentry]
              simp [printLoop, hr, hloop, Item.entry]

theorem printUsers_spec (h : Stores users xs l) :
    printUsers users = some (l.map fun u ↦ .user u.1 u.2) :=
  printLoop_spec h.hash.linked h.entries
    (Nat.lt_succ_of_le (Heap.length_le_size_of_chain h.hash.linked.chain))

end EsNotebook.Uthash
