import EsNotebook.Status.Fragments
import Mathlib.Data.Nat.Digits.Defs

/-!
# The message of an undisturbed walk

While no connection comes or goes, the fragments that a session is sent from
the beginning of its walk on are those of one message: the header, one entry
for each session in the order of the list, separated by commas, and the end.
The callbacks of other sessions may come in between.
-/

namespace EsNotebook.Status

variable {lws : Lws} {s t : State} {ls : List Addr} {a b : Addr} {pss pss' : PerSessionData}
  {es : List Event}

/-! ## The frames of a message -/

def entryFrame (lws : Lws) (sep text : List Char) : WsFrame :=
  { text := false, fin := false, payload := sep ++ lws.snprintf (room sep.length) text }

/-- The frames of the entries with these texts, and of the end of the message. -/
def restFrames (lws : Lws) : Bool → List (List Char) → List WsFrame
  | _, [] => [{ text := false, fin := true, payload := finalText }]
  | subsequent, text :: texts =>
      entryFrame lws (if subsequent then [','] else []) text :: restFrames lws true texts

/-- The frames of a message that lists sessions with these entries. -/
def messageFrames (lws : Lws) (vhd : PerVhostData) (texts : List (List Char)) : List WsFrame :=
  { text := true, fin := false, payload := lws.snprintf (room 0) (headerText lws vhd) } ::
    restFrames lws false texts

theorem length_restFrames (subsequent : Bool) (texts : List (List Char)) :
    (restFrames lws subsequent texts).length = texts.length + 1 := by
  induction texts generalizing subsequent with
  | nil => rfl
  | cons text texts ih => simp [restFrames, ih]

/-- The entries of the sessions `ls`. -/
def entries (lws : Lws) (s : State) (ls : List Addr) : List (List Char) :=
  ls.filterMap fun a ↦ (s.sessions.get? a).map (entryText lws)

theorem entries_cons (ha : s.sessions.get? a = some pss) (ls : List Addr) :
    entries lws s (a :: ls) = entryText lws pss :: entries lws s ls := by
  simp [entries, ha]

theorem length_entries (h : ∀ a ∈ ls, (s.sessions.get? a).isSome) :
    (entries lws s ls).length = ls.length := by
  induction ls with
  | nil => rfl
  | cons a ls ih =>
      obtain ⟨pss, ha⟩ := Option.isSome_iff_exists.mp (h a (by simp))
      simp [entries_cons ha, ih fun b hb ↦ h b (by simp [hb])]

/-! ## A walk without changes of the list -/

/-- A walk still has to send the frames `rest` of its message. -/
inductive Rest (lws : Lws) (s : State) (ls : List Addr) (pss : PerSessionData) :
    List WsFrame → Prop
  | initial : pss.walk = .initial → pss.subsequent = false →
      Rest lws s ls pss (messageFrames lws s.vhd (entries lws s ls))
  | list {rem : List Addr} : pss.walk = .list → rem ≠ [] → Chain s.nx pss.walkNext rem →
      Rest lws s ls pss (restFrames lws pss.subsequent (entries lws s rem))
  | final : pss.walk = .final → Rest lws s ls pss (restFrames lws true [])

theorem restFrames_ne_nil (subsequent : Bool) (texts : List (List Char)) :
    restFrames lws subsequent texts ≠ [] := by
  cases texts <;> simp [restFrames]

theorem Rest.not_nil : ¬Rest lws s ls pss [] := by
  generalize hnil : ([] : List WsFrame) = rest
  intro hrest
  cases hrest with
  | initial => simp [messageFrames] at hnil
  | list => exact restFrames_ne_nil _ _ hnil.symm
  | final => simp [restFrames] at hnil

/-- One step of the walk sends the first of these frames. -/
theorem Rest.walkStep (h : Sessions s ls) (hne : ls ≠ []) {rest : List WsFrame}
    (hrest : Rest lws s ls pss rest) :
    ∃ frame pss' rest', walkStep lws s pss = some (some (frame, pss')) ∧ rest = frame :: rest' ∧
      pss'.changedPartway = pss.changedPartway ∧
      (Rest lws s ls pss' rest' ∨
        rest' = [] ∧ pss'.walk = if pss.changedPartway then .initial else .none) := by
  cases hrest with
  | initial hwalk hsub =>
      refine ⟨_, _, _, walkStep_initial lws s hwalk, rfl, rfl, .inl ?_⟩
      have hlist : Rest lws s ls { pss with walk := .list, walkNext := s.vhd.livePssList }
          (restFrames lws pss.subsequent (entries lws s ls)) := .list rfl hne h.chain
      simpa only [hsub] using hlist
  | final hwalk =>
      refine ⟨_, _, [], walkStep_final lws s (.inl hwalk), rfl, ?_, .inr ⟨rfl, ?_⟩⟩ <;>
        split <;> rfl
  | @list rem hwalk hrem hchain =>
      obtain ⟨w, rem, rfl⟩ := List.exists_cons_of_ne_nil hrem
      obtain ⟨hw, n, hn, htail⟩ := hchain
      obtain ⟨pss₁, hpss₁, rfl⟩ := Heap.next_eq_some_iff.mp hn
      refine ⟨_, _, restFrames lws true (entries lws s rem), walkStep_entry h hwalk hw hpss₁,
        by rw [entries_cons hpss₁]; rfl, rfl, .inl ?_⟩
      by_cases hnil : rem = []
      · subst hnil
        have hnext : pss₁.next = none := chain_nil.mp htail
        exact .final (by simp [hnext])
      · have hnext : pss₁.next ≠ none := fun hnone ↦ hnil ((Chain.eq_none_iff htail).mp hnone)
        exact .list (by simp [hnext]) hnil htail

/-! ## Quiet runs -/

/-- The event changes no connection, and no write of the session `a` fails. -/
def Event.QuietFor (a : Addr) : Event → Prop
  | .serverWriteable b ok => b = a → ok = true
  | .receive _ => True
  | .established .. | .closed _ => False

instance (e : Event) : Decidable (e.QuietFor a) :=
  match e with
  | .serverWriteable b ok => inferInstanceAs (Decidable (b = a → ok = true))
  | .receive _ => .isTrue trivial
  | .established .. | .closed _ => .isFalse id

/-- What a quiet step keeps. -/
structure SameList (lws : Lws) (s t : State) : Prop where
  vhd : t.vhd = s.vhd
  nx : t.nx = s.nx
  entries : ∀ rem, entries lws t rem = entries lws s rem

theorem SameList.of_fixed (hvhd : t.vhd = s.vhd)
    (h : ∀ b, (t.sessions.get? b).map PerSessionData.fixed
      = (s.sessions.get? b).map PerSessionData.fixed) : SameList lws s t := by
  have hfun : ∀ {γ : Type} (g : PerSessionData → γ),
      (∀ p q : PerSessionData, p.fixed = q.fixed → g p = g q) →
      ∀ b, (t.sessions.get? b).map g = (s.sessions.get? b).map g := by
    intro γ g hg b
    have hb := h b
    cases hs : s.sessions.get? b <;> cases ht : t.sessions.get? b <;>
      simp only [hs, ht, Option.map_none, Option.map_some, reduceCtorEq, Option.some.injEq] at hb ⊢
    exact hg _ _ hb
  refine ⟨hvhd, funext (hfun _ fun p q hpq ↦ next_eq_of_fixed hpq), fun rem ↦ ?_⟩
  simp only [Status.entries, hfun _ fun p q hpq ↦ entryText_eq_of_fixed lws hpq]

theorem SameList.rest (hsame : SameList lws s t) {rest : List WsFrame}
    (hrest : Rest lws s ls pss rest) : Rest lws t ls pss rest := by
  cases hrest with
  | initial hwalk hsub =>
      rw [← hsame.vhd, ← hsame.entries]
      exact .initial hwalk hsub
  | list hwalk hrem hchain =>
      rw [← hsame.entries]
      exact .list hwalk hrem (hsame.nx ▸ hchain)
  | final hwalk => exact .final hwalk

theorem sameList_step (h : Sessions s ls) {e : Event} (hq : e.QuietFor a)
    (hstep : step lws s e = some t) : SameList lws s t ∧ Sessions t ls := by
  obtain ⟨he, hcall⟩ := step_eq_some_iff.mp hstep
  cases e with
  | established a wsi now ua => exact hq.elim
  | closed a => exact hq.elim
  | receive b =>
      obtain rfl : s = t := Option.some.inj hcall
      exact ⟨⟨rfl, rfl, fun _ ↦ rfl⟩, h⟩
  | serverWriteable b ok =>
      obtain ⟨pss, hb⟩ := Option.isSome_iff_exists.mp he.1
      obtain ⟨t', ht', hsessions, hvhd, hother, hself⟩ := serverWriteable_spec lws h hb ok
      obtain rfl := Option.some.inj (hcall.symm.trans ht')
      refine ⟨.of_fixed hvhd fun c ↦ ?_, hsessions⟩
      by_cases hc : c = b
      · subst hc
        rcases hself with hi | ⟨frame, pss', hw⟩
        · rw [hi.get?, hb]
        · rw [hw.get?, hb, Option.map_some, Option.map_some, hw.fixed]
      · rw [(hother c hc).get?]

/-- A quiet step passes the session `a` by or calls it for a write that
succeeds. -/
theorem step_quiet (h : Sessions s ls) {e : Event} (hq : e.QuietFor a)
    (hstep : step lws s e = some t) (ha : s.sessions.get? a = some pss) :
    (e ≠ .serverWriteable a true ∧ Untouched s t a) ∨ (e = .serverWriteable a true ∧
      (Idled lws s t a pss ∨ ∃ frame pss', Wrote lws s t a pss true frame pss')) := by
  obtain ⟨he, hcall⟩ := step_eq_some_iff.mp hstep
  cases e with
  | established b wsi now ua => exact hq.elim
  | closed b => exact hq.elim
  | receive b =>
      obtain rfl : s = t := Option.some.inj hcall
      exact .inl ⟨by simp, rfl, Iff.rfl, Iff.rfl, rfl⟩
  | serverWriteable b ok =>
      obtain ⟨pss₀, hb⟩ := Option.isSome_iff_exists.mp he.1
      obtain ⟨t', ht', -, -, hother, hself⟩ := serverWriteable_spec lws h hb ok
      obtain rfl := Option.some.inj (hcall.symm.trans ht')
      by_cases hba : b = a
      · subst hba
        obtain rfl : ok = true := hq rfl
        obtain rfl := Option.some.inj (ha.symm.trans hb)
        exact .inr ⟨rfl, hself⟩
      · exact .inl ⟨by simp [hba], hother a (Ne.symm hba)⟩

/-- A walk begins before the first entry. -/
theorem subsequent_invariant :
    SessionInvariant lws fun pss _ _ _ ↦ pss.walk = .initial → pss.subsequent = false where
  fresh := by simp [freshSession]
  announced := by
    intro vhd pss n w c frames hinit
    simp only [PerSessionData.triggerResend]
    split
    · simp
    · exact hinit
  idled := by simp
  wrote := by
    intro s ls pss w frames ok frame pss' h hinit hstep hwalk'
    obtain ⟨-, -, ⟨-, -, -, hw⟩ | ⟨-, -, -, hw⟩ | ⟨-, -, -, hpss'⟩⟩ := walkStep_some h hstep
    · simp [hw] at hwalk'
    · rcases hw with hw | hw <;> simp [hw] at hwalk'
    · subst hpss'
      simp only [walkFinal] at hwalk' ⊢
      split <;> simp_all

/-- How often the connection of the session `a` has been written to. -/
def writes (a : Addr) (es : List Event) : ℕ := es.count (.serverWriteable a true)

/-- Where a session stands after `k` of the frames of its message. -/
structure Progress (lws : Lws) (s t : State) (ls : List Addr) (a : Addr) (k : ℕ)
    (changed : Bool) : Prop where
  sent : t.sent a = s.sent a ++ (messageFrames lws s.vhd (entries lws s ls)).take k
  walk : ∃ pss, t.sessions.get? a = some pss ∧ pss.changedPartway = changed ∧
    (k < ls.length + 2 → Rest lws t ls pss ((messageFrames lws s.vhd (entries lws s ls)).drop k)) ∧
    (k = ls.length + 2 → pss.walk = if changed then .initial else .none)

theorem length_messageFrames (lws : Lws) (h : Sessions s ls) :
    (messageFrames lws s.vhd (entries lws s ls)).length = ls.length + 2 := by
  rw [messageFrames, List.length_cons, length_restFrames,
    length_entries fun a ha ↦ (h.mem_iff a).mp ha]

theorem progress_of_run (h : Sessions s ls) (ha : s.sessions.get? a = some pss)
    (hwalk : pss.walk = .initial) (hsub : pss.subsequent = false)
    (hrun : (statusServer lws).Run s es t) (hquiet : ∀ e ∈ es, e.QuietFor a)
    (hle : writes a es ≤ ls.length + 2) :
    Sessions t ls ∧ SameList lws s t ∧ Progress lws s t ls a (writes a es) pss.changedPartway := by
  have hne : ls ≠ [] := List.ne_nil_of_mem (h.mem_of_get? ha)
  induction hrun with
  | nil =>
      refine ⟨h, ⟨rfl, rfl, fun _ ↦ rfl⟩, by simp [writes], pss, ha, rfl,
        fun _ ↦ .initial hwalk hsub, fun hk ↦ ?_⟩
      simp [writes] at hk
  | @snoc es u v e hprev hstep ih =>
      have hcount : writes a (es ++ [e]) = writes a es + writes a [e] := List.count_append
      obtain ⟨hu, hsame, hsent, pss₁, ha₁, hch, hrest, hdone⟩ :=
        ih (fun e' he' ↦ hquiet e' (by simp [he'])) (by omega)
      have hqe := hquiet e (by simp)
      obtain ⟨hsame', hv⟩ := sameList_step hu hqe hstep
      refine ⟨hv, ⟨hsame'.vhd.trans hsame.vhd, hsame'.nx.trans hsame.nx,
        fun rem ↦ (hsame'.entries rem).trans (hsame.entries rem)⟩, ?_⟩
      rcases step_quiet hu hqe hstep ha₁ with ⟨hna, hother⟩ | ⟨rfl, hself⟩
      · have hzero : writes a [e] = 0 := by
          simpa [writes, List.count_singleton] using hna
        rw [hcount, hzero, add_zero]
        exact ⟨hother.sent.trans hsent, pss₁, hother.get?.trans ha₁, hch,
          fun hk ↦ hsame'.rest (hrest hk), hdone⟩
      · have hone : writes a [.serverWriteable a true] = 1 := by simp [writes]
        rw [hcount, hone] at hle ⊢
        obtain ⟨frame, pss₂, rest', hwalk₂, hcons, hch₂, hnext⟩ :=
          (hrest (by omega)).walkStep hu hne
        rcases hself with hidle | ⟨frame', pss', hw⟩
        · cases hidle.walkStep.symm.trans hwalk₂
        · obtain ⟨rfl, rfl⟩ : frame' = frame ∧ pss' = pss₂ := by
            simpa using hw.walkStep.symm.trans hwalk₂
          have hk : writes a es < (messageFrames lws s.vhd (entries lws s ls)).length := by
            rw [length_messageFrames lws h]
            omega
          have hdrop := List.drop_eq_getElem_cons hk
          rw [hcons, List.cons.injEq] at hdrop
          refine ⟨?_, pss', hw.get?, hch₂.trans hch, fun hlt ↦ ?_, fun hend ↦ ?_⟩
          · rw [hw.sent, hsent, List.take_succ_eq_append_getElem hk, ← hdrop.1, if_pos rfl,
              List.append_assoc]
          · rw [← hdrop.2]
            rcases hnext with hrest' | ⟨hnil, -⟩
            · exact hsame'.rest hrest'
            · have hlen := congrArg List.length (hdrop.2.symm.trans hnil)
              rw [List.length_drop, length_messageFrames lws h, List.length_nil] at hlen
              omega
          · rw [← hch]
            rcases hnext with hrest' | ⟨-, hfin⟩
            · have hnil : rest' = [] := by
                rw [hdrop.2, hend, ← length_messageFrames lws h, List.drop_length]
              subst hnil
              exact absurd hrest' Rest.not_nil
            · exact hfin

/-! ## The text of the message -/

/-- `lws_snprintf` writes what fits in the room with its end, and a peer's name
fits in `char ip[24]`. -/
structure Lws.Documented (lws : Lws) : Prop where
  snprintf : ∀ n text, text.length < n → lws.snprintf n text = text
  getPeerSimple : ∀ wsi, (lws.getPeerSimple wsi).length < 24

theorem length_copyUserAgent (ua : Option (List Char)) : (copyUserAgent ua).length < 128 := by
  have hunknown : "unknown".toList.length < 128 := by decide +kernel
  cases ua with
  | none => exact hunknown
  | some ua =>
      have heq : copyUserAgent (some ua) = if ua.length < 128 then ua else "unknown".toList := rfl
      rw [heq]
      split
      · assumption
      · exact hunknown

theorem fixed_invariant : SessionInvariant lws fun pss _ _ _ ↦
    pss.userAgent.length < 128 ∧ pss.timeEst < 2 ^ 63 where
  fresh := by
    intro vhd next wsi now ua hnow
    exact ⟨length_copyUserAgent ua, hnow⟩
  announced := by
    intro vhd pss n w c frames hpss
    simp only [PerSessionData.triggerResend]
    split <;> exact hpss
  idled := fun pss w frames _ hpss ↦ hpss
  wrote := by
    intro s ls pss w frames ok frame pss' h hpss hstep
    have hfixed := (walkStep_some h hstep).1
    have htime : pss'.timeEst = pss.timeEst := congrArg (fun c ↦ c.2.2.1) hfixed
    have hua : pss'.userAgent = pss.userAgent := congrArg (fun c ↦ c.2.2.2) hfixed
    rwa [htime, hua]

theorem length_formatEntry (ip ua : List Char) (time : ℕ) :
    (formatEntry ip time ua).length = ip.length + (toString time).length + ua.length + 29 := by
  have h₁ : "\x7b\"peer\":\"".toList.length = 9 := by decide +kernel
  have h₂ : "\",\"time\":\"".toList.length = 10 := by decide +kernel
  have h₃ : "\",\"ua\":\"".toList.length = 8 := by decide +kernel
  have h₄ : "\"\x7d".toList.length = 2 := by decide +kernel
  have heq : formatEntry ip time ua = "\x7b\"peer\":\"".toList ++ ip ++ "\",\"time\":\"".toList
      ++ (toString time).toList ++ "\",\"ua\":\"".toList ++ ua ++ "\"\x7d".toList := rfl
  rw [heq, List.length_append, List.length_append, List.length_append, List.length_append,
    List.length_append, List.length_append, h₁, h₂, h₃, h₄, String.length_toList]
  omega

/-- No entry of a session is cut off. -/
theorem length_entryText (hlws : lws.Documented) (hs : (statusServer lws).Reachable s)
    (ha : s.sessions.get? a = some pss) : (entryText lws pss).length < 383 := by
  obtain ⟨hua, htime⟩ := fixed_invariant.reachable hs ha
  have hip := hlws.getPeerSimple pss.wsi
  have hdigits : (toString pss.timeEst).length ≤ 19 :=
    Nat.repr_length pss.timeEst 19 (by decide) (htime.trans (by norm_num))
  have hlen := length_formatEntry (lws.getPeerSimple pss.wsi) pss.userAgent pss.timeEst
  rw [entryText, hlen]
  omega

theorem intercalate_cons (sep text : List Char) (texts : List (List Char)) :
    sep.intercalate (text :: texts) = text ++ texts.flatMap (sep ++ ·) := by
  induction texts generalizing text with
  | nil => simp [List.intercalate]
  | cons text' texts ih => simp [List.intercalate_cons_cons, ih]

theorem payload_restFrames (hlws : lws.Documented) {texts : List (List Char)}
    (hfit : ∀ text ∈ texts, text.length < 383) :
    (restFrames lws true texts).flatMap WsFrame.payload
      = texts.flatMap ([','] ++ ·) ++ finalText := by
  induction texts with
  | nil => simp [restFrames]
  | cons text texts ih =>
      have htext : lws.snprintf (room 1) text = text :=
        hlws.snprintf _ _ (hfit text (by simp))
      simp [restFrames, entryFrame, htext, ih fun text' h ↦ hfit text' (by simp [h])]

/-- The fragments of a message put together. -/
theorem payload_messageFrames (hlws : lws.Documented) (vhd : PerVhostData)
    {texts : List (List Char)} (hfit : ∀ text ∈ texts, text.length < 383) :
    (messageFrames lws vhd texts).flatMap WsFrame.payload
      = lws.snprintf (room 0) (headerText lws vhd) ++ [','].intercalate texts ++ finalText := by
  cases texts with
  | nil => simp [messageFrames, restFrames, List.intercalate]
  | cons text texts =>
      have htext : lws.snprintf (room 0) text = text :=
        hlws.snprintf _ _ ((hfit text (by simp)).trans (by decide))
      have hrest := payload_restFrames hlws
        fun text' (h : text' ∈ texts) ↦ hfit text' (List.mem_cons_of_mem text h)
      simp [messageFrames, restFrames, entryFrame, htext, hrest, intercalate_cons]

/-- From the beginning of a walk on, as long as no connection comes or goes and
whatever the other sessions do, the connection is sent one message in
fragments: the header, the entries of all open sessions in the order of the
list with commas between, and the end.  Then the walk is over, or starts anew
if an earlier message was disturbed. -/
theorem message_of_quiet_run {es₀ : List Event} (hlws : lws.Documented)
    (hrun₀ : (statusServer lws).Run .init es₀ s) (ha : s.sessions.get? a = some pss)
    (hwalk : pss.walk = .initial) (hrun : (statusServer lws).Run s es t)
    (hquiet : ∀ e ∈ es, e.QuietFor a)
    (hwrites : writes a es = (openSessions es₀).length + 2) :
    ∃ frames pss', t.sent a = s.sent a ++ frames ∧
      frames.flatMap WsFrame.payload = lws.snprintf (room 0) (headerText lws s.vhd)
        ++ [','].intercalate (entries lws s (openSessions es₀)) ++ finalText ∧
      t.sessions.get? a = some pss' ∧
      pss'.walk = if pss.changedPartway then .initial else .none := by
  have hs : (statusServer lws).Reachable s := ⟨_, es₀, rfl, hrun₀⟩
  have h := sessions_of_run hrun₀
  have hsub := subsequent_invariant.reachable hs ha hwalk
  obtain ⟨-, -, hsent, pss', ha', -, -, hdone⟩ :=
    progress_of_run h ha hwalk hsub hrun hquiet hwrites.le
  refine ⟨_, pss', hsent, ?_, ha', hdone hwrites⟩
  rw [hwrites, ← length_messageFrames lws h, List.take_length]
  refine payload_messageFrames hlws s.vhd fun text htext ↦ ?_
  obtain ⟨b, -, hb⟩ := List.mem_filterMap.mp htext
  obtain ⟨pss₁, hpss₁, rfl⟩ := Option.map_eq_some_iff.mp hb
  exact length_entryText hlws hs hpss₁

theorem sample_documented : Lws.sample.Documented where
  snprintf n text h := List.take_of_length_le (Nat.le_sub_one_of_lt h)
  getPeerSimple _ := (by decide : ['p'].length < 24)

/-- Two clients; the second is sent the list while the first is called too. -/
theorem message_of_two_clients :
    ∃ (s t : State) (frames : List WsFrame) (pss pss' : PerSessionData),
      (statusServer .sample).Run .init
        [.established 1 10 100 none, .established 2 11 200 none] s ∧
      s.sessions.get? 2 = some pss ∧
      t.sent 2 = s.sent 2 ++ frames ∧
      frames.flatMap WsFrame.payload
        = Lws.sample.snprintf (room 0) (headerText .sample s.vhd)
          ++ [','].intercalate (entries .sample s [2, 1]) ++ finalText ∧
      t.sessions.get? 2 = some pss' ∧
      pss'.walk = if pss.changedPartway then .initial else .none := by
  obtain ⟨s, t, hrun₀, hP, hrun⟩ : ∃ s t,
      (statusServer .sample).Run .init
        [.established 1 10 100 none, .established 2 11 200 none] s ∧
      ((s.sessions.get? 2).any fun pss ↦ pss.walk = .initial) = true ∧
      (statusServer .sample).Run s
        [.serverWriteable 2 true, .serverWriteable 1 true, .serverWriteable 2 true,
          .serverWriteable 2 true, .serverWriteable 1 true, .serverWriteable 2 true] t :=
    Lts.exists_runs_of_replay (by decide +kernel)
  obtain ⟨pss, ha, hwalk⟩ := (Option.any_eq_true _ _).mp hP
  obtain ⟨frames, pss', hsent, htext, ha', hwalk'⟩ := message_of_quiet_run sample_documented hrun₀ ha
    (of_decide_eq_true hwalk) hrun (by decide) (by decide)
  exact ⟨s, t, frames, pss, pss', hrun₀, ha, hsent, htext, ha', hwalk'⟩

end EsNotebook.Status
