import EsNotebook.Uthash.UserStore

/-!
# Runs of the user store

Whatever is typed into the menu, the program shows the book: it prints what
the book would print, and its hash stores the users of the book.  It fails on
a name that does not fit, and on nothing else.
-/

namespace EsNotebook.Uthash

variable {s s' : Program} {b : Book} {c : Command} {es : List Command} {p : Addr}
  {t : UtHashTable}

/-- The program prints what is in the book. -/
structure Program.Shows (s : Program) (b : Book) : Prop where
  stores : ∃ xs, Stores s.users xs b.users
  id : s.id = b.id
  running : s.running = b.running
  out : s.out = b.out

/-! ## One command -/

theorem Program.Shows.exec (h : s.Shows b) (hread : s.Reads c) (hfits : c.Fits) :
    ∃ s' b', s.exec c = some s' ∧ b.Step c b' ∧ s'.Shows b' := by
  obtain ⟨xs, hstores⟩ := h.stores
  cases c with
  | addUser name m =>
      obtain ⟨users', ys, hadd, hstores'⟩ := addUser_spec hstores hread.2 s.id hfits
      rw [h.id] at hstores'
      exact ⟨{ s with users := users', id := s.id + 1 }, _, by simp [Program.exec, hadd], rfl,
        ⟨ys, hstores'⟩, by simp [h.id], h.running, h.out⟩
  | addById id name m =>
      obtain ⟨users', ys, hadd, hstores'⟩ := addUser_spec hstores hread.2 id hfits
      exact ⟨{ s with users := users', id := id }, _, by simp [Program.exec, hadd], rfl,
        ⟨ys, hstores'⟩, rfl, h.running, h.out⟩
  | findUser id =>
      obtain ⟨o, hfind, ⟨a, -, name, rfl, hentry, hlookup⟩ | ⟨rfl, hid⟩⟩ := findUser_spec hstores id
      · obtain ⟨r, hr, heq⟩ := Option.map_eq_some_iff.mp hentry
        obtain ⟨-, hname⟩ : r.key = id ∧ r.val = name := by simpa [Item.entry] using heq
        exact ⟨{ s with out := s.out ++ [.found (some r.val)] }, _,
          by simp [Program.exec, hfind, hr], rfl, h.stores, h.id, h.running,
          by simp [h.out, hlookup, hname]⟩
      · have hlookup : b.users.lookup id = none :=
          Option.not_isSome_iff_eq_none.mp fun hsome ↦ hid (Book.isSome_lookup_iff.mp hsome)
        exact ⟨{ s with out := s.out ++ [.found none] }, _, by simp [Program.exec, hfind], rfl,
          h.stores, h.id, h.running, by simp [h.out, hlookup]⟩
  | deleteUser id =>
      obtain ⟨o, hfind, ⟨a, ha, name, rfl, hentry, hlookup⟩ | ⟨rfl, hid⟩⟩ :=
        findUser_spec hstores id
      · obtain ⟨users', hdel, hstores'⟩ := deleteUser_spec hstores ha hentry
        exact ⟨{ s with users := users' }, { b with users := Book.remove b.users id },
          by simp [Program.exec, hfind, hdel], by simp [Book.Step, hlookup], ⟨_, hstores'⟩, h.id,
          h.running, h.out⟩
      · have hno : (b.users.lookup id).isSome = false :=
          Bool.eq_false_iff.mpr fun hsome ↦ hid (Book.isSome_lookup_iff.mp hsome)
        exact ⟨{ s with out := s.out ++ [.idUnknown] }, { b with out := b.out ++ [.idUnknown] },
          by simp [Program.exec, hfind], by simp [Book.Step, hno], h.stores, h.id, h.running,
          by simp [h.out]⟩
  | deleteAll =>
      obtain ⟨users', hdel, hstores'⟩ := deleteAll_spec hstores
      exact ⟨{ s with users := users' }, _, by simp [Program.exec, hdel], rfl, ⟨_, hstores'⟩, h.id,
        h.running, h.out⟩
  | sortByName =>
      obtain ⟨users', ys, hsort, hstores'⟩ := hashSrt_stores hstores nameSort
      rw [Book.mergePasses_nameSort] at hstores'
      exact ⟨{ s with users := users' }, _, by simp [Program.exec, Uthash.sortByName, hsort], rfl,
        ⟨ys, hstores'⟩, h.id, h.running, h.out⟩
  | sortById =>
      obtain ⟨users', ys, hsort, hstores'⟩ := hashSrt_stores hstores idSort
      exact ⟨{ s with users := users' }, _, by simp [Program.exec, Uthash.sortById, hsort],
        ⟨_, rfl, mergePasses_perm Nat.one_pos _, Book.mergePasses_idSort⟩, ⟨ys, hstores'⟩, h.id,
        h.running, h.out⟩
  | printUsers =>
      exact ⟨{ s with out := s.out ++ b.users.map fun u ↦ .user u.1 u.2 }, _,
        by simp [Program.exec, printUsers_spec hstores], rfl, h.stores, h.id, h.running,
        by simp [h.out]⟩
  | countUsers =>
      have hcount := hashCount_spec hstores.hash
      rw [hstores.length_eq] at hcount
      exact ⟨{ s with out := s.out ++ [.count b.users.length] }, _, by simp [Program.exec, hcount],
        rfl, h.stores, h.id, h.running, by simp [h.out]⟩
  | quit =>
      obtain ⟨users', hdel, hstores'⟩ := deleteAll_spec hstores
      exact ⟨{ s with users := users', running := false }, _, by simp [Program.exec, hdel], rfl,
        ⟨_, hstores'⟩, h.id, rfl, h.out⟩

theorem Program.Shows.exec_of_not_fits (h : s.Shows b) (hread : s.Reads c) (hfits : ¬c.Fits) :
    s.exec c = none := by
  obtain ⟨xs, hstores⟩ := h.stores
  cases c with
  | addUser name m => simp [Program.exec, addUser_of_not_fits hstores hread.2 s.id hfits]
  | addById id name m => simp [Program.exec, addUser_of_not_fits hstores hread.2 id hfits]
  | _ => exact absurd trivial hfits

theorem Program.Reads.running (hread : s.Reads c) : s.running = true := by
  cases c with
  | addUser name m | addById id name m => exact hread.1
  | _ => exact hread

theorem Program.Shows.step (h : s.Shows b) (hstep : userProgram.step s c s') :
    ∃ b', bookProgram.step b c b' ∧ s'.Shows b' := by
  change s.step c = some s' at hstep
  rw [Program.step, Option.ite_none_right_eq_some] at hstep
  obtain ⟨hread, hexec⟩ := hstep
  have hfits : c.Fits := by
    by_contra hno
    rw [h.exec_of_not_fits hread hno] at hexec
    cases hexec
  obtain ⟨s'', b', hexec', hstep', hshows⟩ := h.exec hread hfits
  obtain rfl : s' = s'' := Option.some.inj (hexec.symm.trans hexec')
  exact ⟨b', ⟨h.running ▸ hread.running, hfits, hstep'⟩, hshows⟩

/-! ## Runs -/

theorem shows_init : Program.init.Shows .init where
  stores := ⟨[], Stores.nil⟩
  id := rfl
  running := rfl
  out := rfl

theorem exists_shows_of_run (hrun : userProgram.Run .init es s) :
    ∃ b, bookProgram.Run .init es b ∧ s.Shows b := by
  induction hrun with
  | nil => exact ⟨.init, .nil, shows_init⟩
  | snoc _ hstep ih =>
      obtain ⟨b, hb, hshows⟩ := ih
      obtain ⟨b', hstep', hshows'⟩ := hshows.step hstep
      exact ⟨b', hb.snoc hstep', hshows'⟩

theorem exists_shows_of_reachable (hs : userProgram.Reachable s) :
    ∃ b, bookProgram.Reachable b ∧ s.Shows b := by
  obtain ⟨s₀, es, rfl, hrun⟩ := hs
  obtain ⟨b, hb, hshows⟩ := exists_shows_of_run hrun
  exact ⟨b, ⟨.init, es, rfl, hb⟩, hshows⟩

/-- Nobody is left in the book after `quit`. -/
theorem users_of_not_running (hb : bookProgram.Reachable b) (hno : b.running = false) :
    b.users = [] := by
  have hinv : bookProgram.Invariant fun b ↦ b.running = false → b.users = [] := by
    refine ⟨fun b hinit _ ↦ ?_, fun b c b' _ hstep hno' ↦ ?_⟩
    · obtain rfl : b = .init := hinit
      rfl
    · obtain ⟨hrunning, -, hstep⟩ := hstep
      cases c with
      | quit =>
          obtain rfl : b' = _ := hstep
          rfl
      | sortById =>
          obtain ⟨l, rfl, -⟩ := hstep
          simp [hrunning] at hno'
      | deleteUser id =>
          obtain rfl : b' = _ := hstep
          split at hno' <;> simp [hrunning] at hno'
      | _ =>
          obtain rfl : b' = _ := hstep
          simp [hrunning] at hno'
  exact hinv.reachable hb hno

/-! ## What can be seen of a run -/

/-- Every link, back link and counter of the hash is right, also the chains. -/
theorem hashFsck_of_reachable (hs : userProgram.Reachable s) : hashFsck s.users = some true := by
  obtain ⟨b, -, hshows⟩ := exists_shows_of_reachable hs
  obtain ⟨xs, hstores⟩ := hshows.stores
  exact hashFsck_spec hstores.hash

theorem hashFsck_of_three_users :
    ∃ s, userProgram.Run .init
      [.addUser ['b'] (.zeroed 4 9), .addUser ['a'] (.zeroed 5 8), .addUser [] (.zeroed 6 8),
        .sortByName, .deleteUser 2] s ∧ hashFsck s.users = some true := by
  obtain ⟨s, hrun, -⟩ : ∃ s, userProgram.Run .init
      [.addUser ['b'] (.zeroed 4 9), .addUser ['a'] (.zeroed 5 8), .addUser [] (.zeroed 6 8),
        .sortByName, .deleteUser 2] s ∧ s.running = true :=
    Lts.exists_run_of_replay (by decide +kernel)
  exact ⟨s, hrun, hashFsck_of_reachable ⟨_, _, rfl, hrun⟩⟩

/-- While the table expands at all, no chain outgrows its multiplier. -/
theorem chains_of_reachable (hs : userProgram.Reachable s) (ht : s.users.tbl = some (p, t)) :
    t.numBuckets = 2 ^ t.log2NumBuckets ∧ t.buckets.length = t.numBuckets ∧
      (∀ b ∈ t.buckets, ∃ cs, bktLinks.Linked s.users.items none b.hhHead cs none ∧
        cs.length = b.count) ∧
      (t.noexpand = false → ∀ b ∈ t.buckets,
        b.count ≤ (b.expandMult + 1) * max hashBktCapacityThresh t.idealChainMaxlen) := by
  obtain ⟨b, -, hshows⟩ := exists_shows_of_reachable hs
  obtain ⟨xs, hstores⟩ := hshows.stores
  have hne : xs ≠ [] := by
    rintro rfl
    simp [Hash.tbl, hstores.head_eq] at ht
  obtain ⟨p', t', h⟩ := hstores.hash.exists_tableAt hne
  obtain ⟨rfl, rfl⟩ : p = p' ∧ t = t' := by simpa [ht] using h.tbl_eq
  refine ⟨h.table.pow, h.table.buckets.length, fun b hb ↦ ?_, fun hexpand ↦ ?_⟩
  · obtain ⟨i, hi, rfl⟩ := List.getElem_of_mem hb
    obtain ⟨cs, hl, hcount, -⟩ := h.table.buckets.chain i _ (List.getElem?_eq_getElem hi)
    exact ⟨cs, hl, hcount.symm⟩
  · exact h.table.bounded.resolve_left (by simp [hexpand])

/-- Ten numbers whose hash values end in the same five bits. -/
def sameBucket : List Command :=
  ([29, 82, 92, 171, 187, 203, 289, 322, 329, 356] : List ℕ).map fun n ↦
    .addById (BitVec.ofNat 32 n) [] (.zeroed n n)

theorem chains_after_expansion :
    ∃ s p t, userProgram.Run .init sameBucket s ∧ s.users.tbl = some (p, t) ∧ t.numBuckets = 64 ∧
      ∀ b ∈ t.buckets, b.count ≤ (b.expandMult + 1) * max hashBktCapacityThresh t.idealChainMaxlen := by
  obtain ⟨s, hrun, hP⟩ : ∃ s, userProgram.Run .init sameBucket s ∧
      (s.users.tbl.any fun x ↦ x.2.numBuckets = 64 ∧ x.2.noexpand = false) = true :=
    Lts.exists_run_of_replay (by decide +kernel)
  obtain ⟨⟨p, t⟩, ht, hP⟩ := (Option.any_eq_true _ _).mp hP
  obtain ⟨hnum, hexpand⟩ := of_decide_eq_true hP
  obtain ⟨-, -, -, hbound⟩ := chains_of_reachable ⟨_, _, rfl, hrun⟩ ht
  exact ⟨s, p, t, hrun, ht, hnum, hbound hexpand⟩

/-- Exactly the users that can be printed are allocated, with one table for
all of them, and nothing is when the program ends. -/
theorem memory_of_user_run (hs : userProgram.Reachable s) :
    ∃ xs, appLinks.Linked s.users.items none s.users.head xs none ∧
      (∀ a, (s.users.items.get? a).isSome ↔ a ∈ xs) ∧ hashCount s.users = some xs.length ∧
      s.users.tables.cells.length = (if xs = [] then 0 else 1) ∧ (s.running = false → xs = []) := by
  obtain ⟨b, hb, hshows⟩ := exists_shows_of_reachable hs
  obtain ⟨xs, hstores⟩ := hshows.stores
  refine ⟨xs, hstores.hash.linked, fun a ↦ hstores.mem_iff.symm, hashCount_spec hstores.hash, ?_,
    fun hno ↦ ?_⟩
  · cases hstores.hash with
    | empty _ hcells => simp [hcells]
    | table h => simp [h.cells, h.ne_nil]
  · have hnil : b.users = [] := users_of_not_running hb (hshows.running ▸ hno)
    exact List.length_eq_zero_iff.mp (by rw [hstores.length_eq, hnil]; rfl)

theorem memory_of_user_run_quit :
    ∃ s, userProgram.Run .init
      [.addUser ['b'] (.zeroed 4 9), .addUser ['a'] (.zeroed 5 8), .quit] s ∧
      s.running = false ∧ s.users.tables.cells.length = 0 ∧
      ∀ a, (s.users.items.get? a).isSome = false := by
  obtain ⟨s, hrun, hno⟩ : ∃ s, userProgram.Run .init
      [.addUser ['b'] (.zeroed 4 9), .addUser ['a'] (.zeroed 5 8), .quit] s ∧ s.running = false :=
    Lts.exists_run_of_replay (by decide +kernel)
  obtain ⟨xs, -, halloc, -, htables, hnil⟩ := memory_of_user_run ⟨_, _, rfl, hrun⟩
  obtain rfl := hnil hno
  refine ⟨s, hrun, hno, by simpa using htables, fun a ↦ Bool.eq_false_iff.mpr fun ha ↦ ?_⟩
  simpa using (halloc a).mp ha

end EsNotebook.Uthash
