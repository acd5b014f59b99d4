import EsNotebook.Lib.Links
import EsNotebook.Lib.MergePasses

/-!
# Merge sort on links

A linked list is sorted in place: each pass walks along the links with one
pointer into each of two runs and moves the cells to the end of a new list,
whose last cell is linked to nothing in particular until the pass is over.
Every loop ends, and the list is the one that the passes over its cells make.
-/

namespace EsNotebook

variable {α β γ : Type*}

namespace Linkage

/-- The list that a pass has put out so far, and the heap. -/
structure Output (α β : Type*) where
  list : Option α
  tail : Option α
  heap : Heap α β

section Loops

variable [DecidableEq α] (L : Linkage α β γ) (le : γ → γ → Bool)

/-- Move the cell `e` to the end of the list. -/
def put (o : Output α β) (e : α) : Option (Output α β) :=
  match o.tail with
  | none => (o.heap.store e (L.setPrev none)).map fun h ↦ ⟨some e, some e, h⟩
  | some t =>
      (o.heap.store t (L.setNext (some e))).bind fun h ↦
        (h.store e (L.setPrev (some t))).map fun h ↦ ⟨o.list, some e, h⟩

/-- Whether the next cell comes from the run at `p`. -/
def takesLeft (h : Heap α β) (p q : Option α) (psize qsize : ℕ) : Option Bool :=
  if psize = 0 then some false
  else if qsize = 0 ∨ q = none then some true
  else
    (p.bind h.get?).bind fun r ↦
      (q.bind h.get?).map fun s ↦ le (L.payload r) (L.payload s)

/-- Merge the run of `psize` cells at `p` with at most `qsize` cells at `q`,
and return where the next run begins. -/
def mergeRuns : ℕ → Option α → Option α → ℕ → ℕ → Output α β → Option (Option α × Output α β)
  | 0, _, _, _, _, _ => none
  | fuel + 1, p, q, psize, qsize, o =>
      if psize ≠ 0 ∨ (qsize ≠ 0 ∧ q ≠ none) then
        (takesLeft L le o.heap p q psize qsize).bind fun
          | true => p.bind fun e ↦ (o.heap.get? e).bind fun r ↦
              (put L o e).bind fun o ↦ mergeRuns fuel (L.next r) q (psize - 1) qsize o
          | false => q.bind fun e ↦ (o.heap.get? e).bind fun r ↦
              (put L o e).bind fun o ↦ mergeRuns fuel p (L.next r) psize (qsize - 1) o
      else some (q, o)

omit [DecidableEq α] in
/-- Step over the run of at most `w` cells at `q`, counting the cells. -/
def skipRun (nx : α → Option (Option α)) : ℕ → Option α → ℕ → Option (Option α × ℕ)
  | 0, q, psize => some (q, psize)
  | i + 1, q, psize =>
      (q.bind nx).bind fun
        | none => some (none, psize + 1)
        | some a => skipRun nx i (some a) (psize + 1)

/-- Merge the runs at `p` two at a time and count the merges. -/
def sortPass (w : ℕ) : ℕ → Option α → ℕ → Output α β → Option (ℕ × Output α β)
  | 0, _, _, _ => none
  | _ + 1, none, nmerges, o => some (nmerges, o)
  | fuel + 1, some p, nmerges, o =>
      (skipRun (o.heap.next L.next) w (some p) 0).bind fun (q, psize) ↦
        (mergeRuns L le (psize + w + 1) (some p) q psize w o).bind fun (q, o) ↦
          sortPass w fuel q (nmerges + 1) o

/-- Link the last cell to nothing. -/
def finish (o : Output α β) : Option (Output α β) :=
  match o.tail with
  | none => some o
  | some t => (o.heap.store t (L.setNext none)).map fun h ↦ { o with heap := h }

/-- Passes with twice the size of runs each time, until one merge is all. -/
def sortLoop : ℕ → ℕ → Option α → Heap α β → Option (Output α β)
  | 0, _, _, _ => none
  | fuel + 1, insize, list, h =>
      (sortPass L le insize (h.size + 1) list 0 ⟨none, none, h⟩).bind fun (nmerges, o) ↦
        (finish L o).bind fun o ↦
          if nmerges ≤ 1 then some o else sortLoop fuel (insize * 2) o.list o.heap

end Loops

variable {L : Linkage α β γ} {le : γ → γ → Bool} [DecidableEq α] {h h' : Heap α β}
  {o o' : Output α β} {out ps qs xs : List α} {e : α} {r : β} {p q m : Option α}
  {fuel psize qsize w n : ℕ}

/-! ## One cell -/

/-- The order of two cells by the rest of their records. -/
def leAt (L : Linkage α β γ) (le : γ → γ → Bool) (h : Heap α β) (a b : α) : Bool :=
  ((h.get? a).map L.payload).elim false fun x ↦
    ((h.get? b).map L.payload).elim false fun y ↦ le x y

theorem SameBut.leAt_eq (hs : L.SameBut h h') : L.leAt le h' = L.leAt le h := by
  funext a b
  rw [leAt, leAt, hs a, hs b]

/-- The output is the list `out`, not yet ended. -/
structure Holds (L : Linkage α β γ) (o : Output α β) (out : List α) : Prop where
  linked : ∃ m, L.Linked o.heap none o.list out m
  tail : o.tail = out.getLast?
  list : out = [] → o.list = none

/-- What moving a cell to the output changes. -/
structure Moved (L : Linkage α β γ) (o o' : Output α β) (out moved : List α) : Prop where
  holds : L.Holds o' (out ++ moved)
  same : L.SameBut o.heap o'.heap
  next : ∀ a, a ∉ out → a ∉ moved → o'.heap.next L.next a = o.heap.next L.next a
  frame : ∀ a, a ∉ out → a ∉ moved → o'.heap.get? a = o.heap.get? a

theorem put_spec (ho : L.Holds o out) (hout : out.Nodup) (he : e ∉ out)
    (hr : o.heap.get? e = some r) : ∃ o', L.put o e = some o' ∧ L.Moved o o' out [e] := by
  obtain ⟨⟨m, hl⟩, htail, hlist⟩ := ho
  rcases List.eq_nil_or_concat out with rfl | ⟨xs, y, rfl⟩
  · refine ⟨⟨some e, some e, o.heap.modify e (L.setPrev none)⟩, ?_, ⟨⟨L.next r, ?_⟩, ?_, ?_⟩,
      ?_, ?_, ?_⟩
    · simp [put, htail, Heap.store_of_get? hr]
    · exact ⟨rfl, _, Heap.get?_modify_of_get? hr, L.back_setPrev _ _, by simp⟩
    · rfl
    · simp
    · exact SameBut.refl.modify (L.payload_setPrev none)
    · exact fun a _ _ ↦ Heap.next_modify_of_link (L.next_setPrev none)
    · exact fun a _ ha ↦ Heap.get?_modify_of_ne (by simpa using ha)
  rw [List.concat_eq_append] at *
  have hyxs : y ∉ xs := fun hmem ↦ (List.nodup_append.mp hout).2.2 y hmem y (by simp) rfl
  have hey : e ≠ y := fun heq ↦ he (by simp [heq])
  obtain ⟨s, hs⟩ := hl.exists_get? (a := y) (by simp)
  set h₁ := o.heap.modify y (L.setNext (some e)) with hh₁
  have hr₁ : h₁.get? e = some r := (Heap.get?_modify_of_ne hey).trans hr
  refine ⟨⟨o.list, some e, h₁.modify e (L.setPrev (some y))⟩, ?_, ⟨⟨L.next r, ?_⟩, ?_, ?_⟩,
    ?_, ?_, ?_⟩
  · simp [put, htail, Heap.store_of_get? hs, ← hh₁, Heap.store_of_get? hr₁]
  · have hlast : L.Linked h₁ none o.list (xs ++ [y]) (some e) := hl.setNext_last hyxs
    refine linked_append.mpr ⟨some e, hlast.modify_of_notMem he, rfl, _,
      Heap.get?_modify_of_get? hr₁, ?_, by simp⟩
    simp
  · simp
  · simp
  · exact (SameBut.refl.modify (L.payload_setNext (some e))).modify (L.payload_setPrev (some y))
  · intro a ha _
    have hay : a ≠ y := fun heq ↦ ha (by simp [heq])
    rw [Heap.next_modify_of_link (L.next_setPrev (some y))]
    exact Heap.next_modify_of_ne hay
  · intro a ha hae
    have hay : a ≠ y := fun heq ↦ ha (by simp [heq])
    rw [Heap.get?_modify_of_ne (by simpa using hae), Heap.get?_modify_of_ne hay]

/-! ## One merge -/

theorem mergeRuns_of_left (hp : p = some e) (hr : o.heap.get? e = some r)
    (hput : L.put o e = some o') (hpsize : psize ≠ 0)
    (htake : L.takesLeft le o.heap p q psize qsize = some true) :
    L.mergeRuns le (fuel + 1) p q psize qsize o
      = L.mergeRuns le fuel (L.next r) q (psize - 1) qsize o' := by
  subst hp
  simp [mergeRuns, hpsize, htake, hr, hput]

theorem mergeRuns_of_right (hq : q = some e) (hr : o.heap.get? e = some r)
    (hput : L.put o e = some o') (hqsize : qsize ≠ 0)
    (htake : L.takesLeft le o.heap p q psize qsize = some false) :
    L.mergeRuns le (fuel + 1) p q psize qsize o
      = L.mergeRuns le fuel p (L.next r) psize (qsize - 1) o' := by
  subst hq
  simp [mergeRuns, hqsize, htake, hr, hput]

theorem Moved.refl (ho : L.Holds o out) : L.Moved o o out [] where
  holds := by simpa using ho
  same := .refl
  next _ _ _ := rfl
  frame _ _ _ := rfl

theorem Moved.trans {o₁ o₂ : Output α β} {ms ns : List α} (h₁ : L.Moved o o₁ out ms)
    (h₂ : L.Moved o₁ o₂ (out ++ ms) ns) : L.Moved o o₂ out (ms ++ ns) where
  holds := by simpa using h₂.holds
  same := h₁.same.trans h₂.same
  next a ha hmem := by
    obtain ⟨hms, hns⟩ := not_or.mp (List.mem_append.not.mp hmem)
    rw [h₂.next a (by simp [ha, hms]) hns, h₁.next a ha hms]
  frame a ha hmem := by
    obtain ⟨hms, hns⟩ := not_or.mp (List.mem_append.not.mp hmem)
    rw [h₂.frame a (by simp [ha, hms]) hns, h₁.frame a ha hms]

/-- A merge puts out the cells of `merged`, and the list goes on with those of
`rest`. -/
def Merges (L : Linkage α β γ) (o : Output α β) (out merged rest : List α)
    (result : Option (Option α × Output α β)) : Prop :=
  ∃ q o', result = some (q, o') ∧ L.Moved o o' out merged ∧ Chain (o'.heap.next L.next) q rest

/-- A cell from the left run is next. -/
theorem mergeRuns_cons_left (ho : L.Holds o out) (hps : Seg (o.heap.next L.next) p (e :: ps) m)
    (hqs : Chain (o.heap.next L.next) q qs) (hnodup : (out ++ (e :: ps ++ qs)).Nodup)
    (htake : L.takesLeft le o.heap p q (ps.length + 1) qsize = some true)
    (hrest : ∀ p' o', L.Holds o' (out ++ [e]) → Seg (o'.heap.next L.next) p' ps m →
      Chain (o'.heap.next L.next) q qs →
      L.Merges o' (out ++ [e]) (ps.merge (qs.take qsize) (L.leAt le o'.heap)) (qs.drop qsize)
        (L.mergeRuns le fuel p' q ps.length qsize o')) :
    L.Merges o out (e :: ps.merge (qs.take qsize) (L.leAt le o.heap)) (qs.drop qsize)
      (L.mergeRuns le (fuel + 1) p q (ps.length + 1) qsize o) := by
  obtain ⟨hout, hcons, hdisj⟩ := List.nodup_append.mp hnodup
  have he : e ∉ out := fun hmem ↦ hdisj e hmem e (by simp) rfl
  have hetail : e ∉ ps ++ qs := (List.nodup_cons.mp hcons).1
  obtain ⟨rfl, n, hn, hps⟩ := hps
  obtain ⟨r, hr, rfl⟩ := Heap.next_eq_some_iff.mp hn
  obtain ⟨o₁, hput, hmoved⟩ := put_spec ho hout he hr
  have hnext : ∀ a ∈ ps ++ qs, o₁.heap.next L.next a = o.heap.next L.next a := by
    intro a ha
    refine hmoved.next a (fun hmem ↦ hdisj a hmem a (List.mem_cons_of_mem e ha) rfl) ?_
    rw [List.mem_singleton]
    rintro rfl
    exact hetail ha
  obtain ⟨q', o', hrun, hmoved', hchain⟩ := hrest (L.next r) o₁ hmoved.holds
    (hps.congr fun a ha ↦ hnext a (by simp [ha])) (hqs.congr fun a ha ↦ hnext a (by simp [ha]))
  rw [hmoved.same.leAt_eq] at hmoved'
  refine ⟨q', o', ?_, hmoved.trans hmoved', hchain⟩
  rw [mergeRuns_of_left rfl hr hput (by simp) htake]
  exact hrun

/-- A cell from the right run is next. -/
theorem mergeRuns_cons_right (ho : L.Holds o out) (hps : Seg (o.heap.next L.next) p ps m)
    (hqs : Chain (o.heap.next L.next) q (e :: qs)) (hnodup : (out ++ (ps ++ e :: qs)).Nodup)
    (htake : L.takesLeft le o.heap p q ps.length (qsize + 1) = some false)
    (hrest : ∀ q' o', L.Holds o' (out ++ [e]) → Seg (o'.heap.next L.next) p ps m →
      Chain (o'.heap.next L.next) q' qs →
      L.Merges o' (out ++ [e]) (ps.merge (qs.take qsize) (L.leAt le o'.heap)) (qs.drop qsize)
        (L.mergeRuns le fuel p q' ps.length qsize o')) :
    L.Merges o out (e :: ps.merge (qs.take qsize) (L.leAt le o.heap)) (qs.drop qsize)
      (L.mergeRuns le (fuel + 1) p q ps.length (qsize + 1) o) := by
  obtain ⟨hout, hrest', hdisj⟩ := List.nodup_append.mp hnodup
  have he : e ∉ out := fun hmem ↦ hdisj e hmem e (by simp) rfl
  have hetail : e ∉ ps ++ qs := (List.nodup_cons.mp (List.nodup_middle.mp hrest')).1
  obtain ⟨rfl, n, hn, hqs⟩ := hqs
  obtain ⟨r, hr, rfl⟩ := Heap.next_eq_some_iff.mp hn
  obtain ⟨o₁, hput, hmoved⟩ := put_spec ho hout he hr
  have hnext : ∀ a ∈ ps ++ qs, o₁.heap.next L.next a = o.heap.next L.next a := by
    intro a ha
    have hmem' : a ∈ ps ++ e :: qs := List.perm_middle.mem_iff.mpr (List.mem_cons_of_mem e ha)
    refine hmoved.next a (fun hmem ↦ hdisj a hmem a hmem' rfl) ?_
    rw [List.mem_singleton]
    rintro rfl
    exact hetail ha
  obtain ⟨q', o', hrun, hmoved', hchain⟩ := hrest (L.next r) o₁ hmoved.holds
    (hps.congr fun a ha ↦ hnext a (by simp [ha])) (hqs.congr fun a ha ↦ hnext a (by simp [ha]))
  rw [hmoved.same.leAt_eq] at hmoved'
  refine ⟨q', o', ?_, hmoved.trans hmoved', hchain⟩
  rw [mergeRuns_of_right rfl hr hput (by simp) htake]
  exact hrun

theorem takesLeft_of_get? {x y : α} {s : β} (hx : o.heap.get? x = some r)
    (hy : o.heap.get? y = some s) (hpsize : psize ≠ 0) (hqsize : qsize ≠ 0) :
    L.takesLeft le o.heap (some x) (some y) psize qsize = some (L.leAt le o.heap x y) := by
  simp [takesLeft, hpsize, hqsize, hx, hy, leAt]

theorem mergeRuns_spec (le : γ → γ → Bool) (fuel qsize : ℕ) (ho : L.Holds o out) (hps : Seg (o.heap.next L.next) p ps m)
    (hqs : Chain (o.heap.next L.next) q qs) (hnodup : (out ++ (ps ++ qs)).Nodup)
    (hfuel : ps.length + min qsize qs.length < fuel) :
    L.Merges o out (ps.merge (qs.take qsize) (L.leAt le o.heap)) (qs.drop qsize)
      (L.mergeRuns le fuel p q ps.length qsize o) := by
  induction fuel generalizing o out p q ps qs qsize with
  | zero => simp at hfuel
  | succ fuel ih =>
      -- the rest of the merge after a cell of the left run
      have hleft : ∀ {x ps'}, ps = x :: ps' →
          L.takesLeft le o.heap p q ps.length qsize = some true →
          L.Merges o out (x :: ps'.merge (qs.take qsize) (L.leAt le o.heap)) (qs.drop qsize)
            (L.mergeRuns le (fuel + 1) p q ps.length qsize o) := by
        rintro x ps' rfl htake
        refine mergeRuns_cons_left ho hps hqs hnodup htake fun p' o' ho' hps' hqs' ↦
          ih _ ho' hps' hqs' (by simpa using hnodup) ?_
        rw [List.length_cons] at hfuel
        omega
      -- and after a cell of the right run
      have hright : ∀ {y qs' k}, qs = y :: qs' → qsize = k + 1 →
          L.takesLeft le o.heap p q ps.length qsize = some false →
          L.Merges o out (y :: ps.merge (qs'.take k) (L.leAt le o.heap)) (qs.drop qsize)
            (L.mergeRuns le (fuel + 1) p q ps.length qsize o) := by
        rintro y qs' k rfl rfl htake
        refine mergeRuns_cons_right ho hps hqs hnodup htake fun q' o' ho' hps' hqs' ↦
          ih _ ho' hps' hqs' ?_ ?_
        · have hperm : (out ++ [y] ++ (ps ++ qs')).Perm (out ++ (ps ++ y :: qs')) := by
            rw [List.append_assoc, List.singleton_append]
            exact List.perm_middle.symm.append_left out
          exact hperm.nodup_iff.mpr hnodup
        · rw [List.length_cons] at hfuel
          omega
      cases qsize with
      | zero =>
          cases ps with
          | nil => exact ⟨q, o, by simp [mergeRuns], by simpa using .refl ho, by simpa using hqs⟩
          | cons x ps => simpa using hleft rfl (by simp [takesLeft])
      | succ k =>
          cases qs with
          | nil =>
              obtain rfl := chain_nil.mp hqs
              cases ps with
              | nil => exact ⟨none, o, by simp [mergeRuns], by simpa using .refl ho, by simp⟩
              | cons x ps => simpa using hleft rfl (by simp [takesLeft])
          | cons y qs =>
              cases ps with
              | nil => simpa using hright rfl rfl (by simp [takesLeft])
              | cons x ps =>
                  obtain ⟨rfl, n, hn, -⟩ := id hps
                  obtain ⟨rfl, n', hn', -⟩ := id hqs
                  obtain ⟨r, hr, -⟩ := Heap.next_eq_some_iff.mp hn
                  obtain ⟨s, hs, -⟩ := Heap.next_eq_some_iff.mp hn'
                  have htake : L.takesLeft le o.heap (some x) (some y) (ps.length + 1) (k + 1)
                      = some (L.leAt le o.heap x y) :=
                    takesLeft_of_get? hr hs (Nat.succ_ne_zero _) (Nat.succ_ne_zero _)
                  rw [List.take_succ_cons]
                  cases hle : L.leAt le o.heap x y with
                  | true =>
                      rw [List.cons_merge_cons_pos _ _ _ hle, ← List.take_succ_cons]
                      exact hleft rfl (hle ▸ htake)
                  | false =>
                      rw [List.cons_merge_cons_neg _ _ _ (by simp [hle])]
                      exact hright rfl rfl (hle ▸ htake)

/-! ## One pass -/

omit [DecidableEq α] in
theorem skipRun_spec {nx : α → Option (Option α)} (hc : Chain nx q xs) (hxs : xs ≠ []) :
    ∃ q', skipRun nx w q n = some (q', n + (xs.take w).length) ∧ Seg nx q (xs.take w) q' ∧
      Chain nx q' (xs.drop w) := by
  induction w generalizing q xs n with
  | zero => exact ⟨q, by simp [skipRun], by simp, by simpa using hc⟩
  | succ w ih =>
      cases xs with
      | nil => exact absurd rfl hxs
      | cons x xs =>
          obtain ⟨rfl, m, hm, hxs⟩ := hc
          cases m with
          | none =>
              obtain rfl := (Chain.eq_none_iff hxs).mp rfl
              exact ⟨none, by simp [skipRun, hm], by simp [hm], by simp⟩
          | some y =>
              have hne : xs ≠ [] := fun hnil ↦ by
                cases (Chain.eq_none_iff hxs).mpr hnil
              obtain ⟨q', hrun, hseg, hchain⟩ := ih (n := n + 1) hxs hne
              refine ⟨q', ?_, ⟨rfl, some y, hm, hseg⟩, hchain⟩
              simp only [skipRun, Option.bind_some, hm, hrun, List.take_succ_cons,
                List.length_cons]
              congr 2
              omega

/-- How many merges a pass over `len` cells makes. -/
def mergeCount (w len : ℕ) : ℕ := (len + (2 * w - 1)) / (2 * w)

theorem mergeCount_zero (hw : 0 < w) : mergeCount w 0 = 0 :=
  Nat.div_eq_of_lt (by omega)

theorem mergeCount_of_pos (hw : 0 < w) {len : ℕ} (hlen : 0 < len) :
    mergeCount w len = mergeCount w (len - 2 * w) + 1 := by
  unfold mergeCount
  rcases le_total len (2 * w) with h | h
  · have hsub : len - 2 * w = 0 := by omega
    have hsplit : len + (2 * w - 1) = (len - 1) + 2 * w := by omega
    rw [hsub, hsplit, Nat.add_div_right _ (by omega), Nat.div_eq_of_lt (by omega),
      Nat.div_eq_of_lt (by omega)]
  · have hsplit : len + (2 * w - 1) = (len - 2 * w + (2 * w - 1)) + 2 * w := by omega
    rw [hsplit, Nat.add_div_right _ (by omega)]

theorem mergeCount_le_one_iff (hw : 0 < w) {len : ℕ} : mergeCount w len ≤ 1 ↔ len ≤ 2 * w := by
  unfold mergeCount
  rw [← Nat.lt_succ_iff, Nat.div_lt_iff_lt_mul (by omega)]
  omega

theorem sortPass_spec (le : γ → γ → Bool) (n : ℕ) (hw : 0 < w) (ho : L.Holds o out) (hc : Chain (o.heap.next L.next) p xs)
    (hnodup : (out ++ xs).Nodup) (hfuel : xs.length < fuel) :
    ∃ o', L.sortPass le w fuel p n o = some (n + mergeCount w xs.length, o') ∧
      L.Moved o o' out (mergePass (L.leAt le o.heap) w xs) := by
  induction fuel generalizing o out p xs n with
  | zero => simp at hfuel
  | succ fuel ih =>
      cases xs with
      | nil =>
          obtain rfl := chain_nil.mp hc
          exact ⟨o, by simp [sortPass, mergeCount_zero hw], by simpa using .refl ho⟩
      | cons x xs =>
          obtain ⟨q, hskip, hseg, hchain⟩ := skipRun_spec (w := w) (n := 0) hc (by simp)
          obtain rfl := hc.1
          set ps := (x :: xs).take w with hps
          set qs := (x :: xs).drop w with hqs
          have hsplit : ps ++ qs = x :: xs := List.take_append_drop w (x :: xs)
          obtain ⟨q', o₁, hrun, hmoved, hchain'⟩ := mergeRuns_spec le (ps.length + w + 1) w ho
            hseg hchain (by rwa [hsplit]) (by omega)
          have hdrop : qs.drop w = (x :: xs).drop (2 * w) := by
            rw [hqs, List.drop_drop, Nat.two_mul]
          have hperm : (out ++ ps.merge (qs.take w) (L.leAt le o.heap) ++ qs.drop w).Perm
              (out ++ x :: xs) := by
            rw [List.append_assoc]
            refine List.Perm.append_left out ?_
            have hmerge : (ps.merge (qs.take w) (L.leAt le o.heap) ++ qs.drop w).Perm
                (ps ++ qs.take w ++ qs.drop w) :=
              (List.merge_perm_append (L.leAt le o.heap)).append_right (qs.drop w)
            rwa [List.append_assoc ps, List.take_append_drop, hsplit] at hmerge
          obtain ⟨o', hpass, hmoved'⟩ := ih (n + 1) hmoved.holds hchain'
            (hperm.nodup_iff.mpr hnodup) (by
              rw [hdrop, List.length_drop, List.length_cons]
              rw [List.length_cons] at hfuel
              omega)
          rw [hmoved.same.leAt_eq] at hmoved'
          refine ⟨o', ?_, ?_⟩
          · rw [Nat.zero_add] at hskip
            simp only [sortPass, hskip, Option.bind_some, hrun, hpass]
            rw [hdrop, List.length_drop, mergeCount_of_pos hw (by simp : 0 < (x :: xs).length)]
            congr 2
            omega
          · rw [mergePass_of_ne_nil hw (by simp), ← hps, ← hqs, ← hdrop]
            exact hmoved.trans hmoved'

/-! ## All passes -/

/-- The list `ys` after a sort of the heap `h`. -/
structure Relinked (L : Linkage α β γ) (h : Heap α β) (o : Output α β) (ys : List α) : Prop where
  linked : L.Linked o.heap none o.list ys none
  tail : o.tail = ys.getLast?
  same : L.SameBut h o.heap
  frame : ∀ a, a ∉ ys → o.heap.get? a = h.get? a

theorem finish_spec (ho : L.Moved ⟨none, none, h⟩ o [] out) (hout : out.Nodup) :
    ∃ o', L.finish o = some o' ∧ L.Relinked h o' out := by
  obtain ⟨⟨⟨m, hl⟩, htail, hlist⟩, hsame, -, hframe⟩ := ho
  rw [List.nil_append] at hl htail hlist
  rcases List.eq_nil_or_concat out with rfl | ⟨xs, y, rfl⟩
  · refine ⟨o, by simp [finish, htail], by simpa using hlist, htail, hsame, ?_⟩
    exact fun a ha ↦ hframe a (by simp) ha
  rw [List.concat_eq_append] at *
  have hyxs : y ∉ xs := fun hmem ↦ (List.nodup_append.mp hout).2.2 y hmem y (by simp) rfl
  obtain ⟨s, hs⟩ := hl.exists_get? (a := y) (by simp)
  refine ⟨{ o with heap := o.heap.modify y (L.setNext none) }, ?_, hl.setNext_last hyxs, htail,
    hsame.modify (L.payload_setNext none), fun a ha ↦ ?_⟩
  · simp [finish, htail, Heap.store_of_get? hs]
  · have hay : a ≠ y := fun heq ↦ ha (by simp [heq])
    exact (Heap.get?_modify_of_ne hay).trans (hframe a (by simp) ha)

theorem sortLoop_spec (le : γ → γ → Bool) (hw : 0 < w) (hc : Chain (h.next L.next) p xs)
    (hfuel : xs.length < fuel + w) (hpos : 0 < fuel) :
    ∃ o, L.sortLoop le fuel w p h = some o ∧
      L.Relinked h o (mergePasses (L.leAt le h) w xs) := by
  induction fuel generalizing w h p xs with
  | zero => simp at hpos
  | succ fuel ih =>
      have ho : L.Holds ⟨none, none, h⟩ [] := ⟨⟨none, rfl⟩, rfl, fun _ ↦ rfl⟩
      obtain ⟨o, hpass, hmoved⟩ := sortPass_spec le 0 hw ho hc (by simpa using hc.nodup)
        (Nat.lt_succ_of_le (Heap.length_le_size_of_chain hc))
      have hnodup : (mergePass (L.leAt le h) w xs).Nodup :=
        (mergePass_perm hw xs).nodup_iff.mpr hc.nodup
      obtain ⟨o₁, hfinish, hrelinked⟩ := finish_spec hmoved hnodup
      by_cases hle : xs.length ≤ 2 * w
      · refine ⟨o₁, ?_, ?_⟩
        · simp [sortLoop, hpass, hfinish, (mergeCount_le_one_iff hw).mpr hle]
        · rwa [mergePasses_of_le hle]
      · obtain ⟨o', hrun, hrelinked'⟩ := ih (w := 2 * w) (by omega) hrelinked.linked.chain
          (by rw [length_mergePass hw]; omega) (by omega)
        rw [hrelinked.same.leAt_eq, ← mergePasses_of_lt hw (Nat.lt_of_not_le hle)] at hrelinked'
        refine ⟨o', ?_, hrelinked'.linked, hrelinked'.tail,
          hrelinked.same.trans hrelinked'.same, fun a ha ↦ ?_⟩
        · have hcount : ¬mergeCount w xs.length ≤ 1 := (mergeCount_le_one_iff hw).not.mpr hle
          rw [Nat.mul_comm 2 w] at hrun
          simpa [sortLoop, hpass, hfinish, hcount] using hrun
        · have hmem : a ∉ mergePass (L.leAt le h) w xs := by
            rw [mergePasses_of_lt hw (Nat.lt_of_not_le hle)] at ha
            rwa [(mergePasses_perm (by omega) _).mem_iff] at ha
          rw [hrelinked'.frame a ha, hrelinked.frame a hmem]

end Linkage

end EsNotebook
