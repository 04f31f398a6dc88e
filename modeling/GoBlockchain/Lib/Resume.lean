import GoBlockchain.Lib.CatchUp
import GoBlockchain.Lib.Replay

/-!
# Catching up again and again

A subscriber of a growing log (`CatchUp`) may lose its connection at any moment, with items sent and
not received. It then subscribes anew and is sent everything from the start. So it gets items more
than once, and in earlier connections it may have missed some.

Once it has received what was scanned for the current subscription, everything it was ever given is
among what it was given by this one, up to copies (`Inv.caught_up`). Nothing is asked of the
announcements for that, nor of the room in the channel. With operations that overwrite what they did
before, the earlier subscriptions then make no difference (`foldl_flatMap_eq`).
-/

namespace Resume

open CatchUp (Phase Recorded)

variable {β κ : Type*}

structure State (β : Type*) where
  /-- The log and the current subscription. -/
  call : CatchUp.State β
  /-- How many of the items of the current subscription were received. -/
  received : ℕ
  /-- What was received in earlier subscriptions, oldest first. -/
  earlier : List β

/-- What was received in the current subscription. -/
def State.current (st : State β) : List β := st.call.sent.take st.received

variable (key : β → κ) (wanted : β → Bool) (size : ℕ)

/-- What was scanned for the current subscription, in the order in which it is sent. -/
def State.history (st : State β) : List β := (st.call.scanned.filter wanted).reverse

/-- An item arrives. -/
def State.receive (st : State β) : State β := { st with received := st.received + 1 }

/-- The subscriber subscribes anew. -/
def State.redial (st : State β) : State β where
  call := { st.call with phase := .idle, scanned := [], sent := [] }
  received := 0
  earlier := st.earlier ++ st.current

/-- An item that is wanted is a copy of one of these. -/
def Copied (items : List β) (b : β) : Prop :=
  wanted b = true ∧ ∃ c ∈ items, key c = key b ∧ wanted c = true

/-- How what was sent compares with what was scanned. -/
def Sends (st : State β) : Phase β → Prop
  | .idle => st.call.sent = []
  | .sending rest => st.call.sent ++ rest = st.history wanted
  | .live _ => st.history wanted <+: st.call.sent
  | .closed => st.call.sent <+: st.history wanted ∨ st.history wanted <+: st.call.sent

/-- What holds along every run. -/
structure Inv (st : State β) : Prop where
  recorded : Recorded key wanted st.call
  /-- What waits in the channel is in the log. -/
  channel : ∀ ch, st.call.phase = .live ch → ∀ b ∈ ch, ∃ c ∈ st.call.log,
    key c = key b ∧ wanted c = wanted b
  sends : Sends wanted st st.call.phase
  sent : ∀ b ∈ st.call.sent, Copied key wanted st.call.log b
  earlier : ∀ b ∈ st.earlier, Copied key wanted st.call.log b ∧
    (st.call.phase ≠ .idle → Copied key wanted st.call.scanned b)
  /-- What was scanned is an older state of the log. -/
  scanned : st.call.phase ≠ .idle → st.call.scanned <:+ st.call.log
  received : st.received ≤ st.call.sent.length

variable {key wanted size} {st : State β}

theorem Copied.mono {items items' : List β} {b : β} (h : Copied key wanted items b)
    (hsub : items ⊆ items') : Copied key wanted items' b := by
  obtain ⟨hb, c, hc, hcopy⟩ := h
  exact ⟨hb, c, hsub hc, hcopy⟩

theorem current_subset (st : State β) : st.current ⊆ st.call.sent :=
  List.take_subset _ _

/-- What is sent of the scan is a copy of itself. -/
theorem Inv.copied_of_history (h : Inv key wanted st) {b : β} (hb : b ∈ st.history wanted) :
    Copied key wanted st.call.log b := by
  obtain ⟨hscanned, hwanted⟩ := List.mem_filter.1 (List.mem_reverse.1 hb)
  exact ⟨hwanted, b, h.recorded.scanned hscanned, rfl, hwanted⟩

/-- A step of the log and of the subscription keeps the invariant. -/
theorem Inv.call (h : Inv key wanted st) {l : CatchUp.Label β} {c : CatchUp.State β}
    (hstep : CatchUp.Step key wanted size l st.call c) :
    Inv key wanted { st with call := c } := by
  have hrecorded := h.recorded.step hstep
  have hsends := h.sends
  cases hstep with
  | @append _ b c _ _ _ =>
    have hsub : st.call.log ⊆ c :: st.call.log := List.subset_cons_self _ _
    refine ⟨hrecorded, fun ch hch b hb ↦ ?_, hsends, fun b hb ↦ (h.sent b hb).mono hsub,
      fun b hb ↦ ?_, fun hopen ↦ (h.scanned hopen).trans (List.suffix_cons _ _), h.received⟩
    · obtain ⟨d, hd, hcopy⟩ := h.channel ch hch b hb
      exact ⟨d, hsub hd, hcopy⟩
    · exact ⟨(h.earlier b hb).1.mono hsub, (h.earlier b hb).2⟩
  | @announce _ b before after hpending =>
    have hb : b ∈ st.call.pending ++ st.call.announced :=
      List.mem_append_left _ (hpending ▸ List.mem_append_right _ List.mem_cons_self)
    have hidle : st.call.phase.announce size b ≠ .idle → st.call.phase ≠ .idle :=
      fun hne heq ↦ hne (CatchUp.announce_eq_idle.2 heq)
    refine ⟨hrecorded, fun ch hch d hd ↦ ?_, ?_, h.sent, fun d hd ↦ ?_, fun hopen ↦ ?_, h.received⟩
    · rcases hphase : st.call.phase with _ | _ | channel | _
      · simp only [CatchUp.State.announce, hphase, Phase.announce, reduceCtorEq] at hch
      · simp only [CatchUp.State.announce, hphase, Phase.announce, reduceCtorEq] at hch
      · simp only [CatchUp.State.announce, hphase, Phase.announce, Phase.live.injEq] at hch
        have hcases : d ∈ channel ∨ d = b := by
          split at hch
          · rw [← hch, List.mem_append, List.mem_singleton] at hd
            exact hd
          · rw [← hch] at hd
            exact .inl hd
        rcases hcases with hd | rfl
        · exact h.channel channel hphase d hd
        · exact h.recorded.logged d hb
      · simp only [CatchUp.State.announce, hphase, Phase.announce, reduceCtorEq] at hch
    · show Sends wanted st (st.call.phase.announce size b)
      rcases hphase : st.call.phase with _ | rest | channel | _ <;> rw [hphase] at hsends <;>
        exact hsends
    · exact ⟨(h.earlier d hd).1, fun hopen ↦ (h.earlier d hd).2 (hidle hopen)⟩
    · exact h.scanned (hidle hopen)
  | scan hidle =>
    rw [hidle] at hsends
    have hempty : st.call.sent = [] := hsends
    refine ⟨hrecorded, (fun ch hch ↦ by cases hch), ?_, h.sent, fun b hb ↦ ?_,
      fun _ ↦ List.suffix_refl _, h.received⟩
    · show st.call.sent ++ (st.call.log.filter wanted).reverse =
        (st.call.log.filter wanted).reverse
      rw [hempty, List.nil_append]
    · exact ⟨(h.earlier b hb).1, fun _ ↦ (h.earlier b hb).1⟩
  | @send _ b rest hphase =>
    rw [hphase] at hsends
    have hopen : st.call.phase ≠ .idle := fun heq ↦ by rw [hphase] at heq; cases heq
    have hhistory : st.call.sent ++ b :: rest = st.history wanted := hsends
    have hb : b ∈ st.history wanted :=
      hhistory ▸ List.mem_append_right _ List.mem_cons_self
    refine ⟨hrecorded, (fun ch hch ↦ by cases hch), ?_, fun d hd ↦ ?_, fun d hd ↦ ?_,
      fun _ ↦ h.scanned hopen, ?_⟩
    · show st.call.sent ++ [b] ++ rest = st.history wanted
      rw [List.append_assoc]
      exact hhistory
    · obtain hd | hd := List.mem_append.1 hd
      · exact h.sent d hd
      · obtain rfl := List.mem_singleton.1 hd
        exact h.copied_of_history hb
    · exact ⟨(h.earlier d hd).1, fun _ ↦ (h.earlier d hd).2 hopen⟩
    · exact Nat.le_trans h.received (by simp)
  | subscribe hphase =>
    rw [hphase] at hsends
    have hopen : st.call.phase ≠ .idle := fun heq ↦ by rw [hphase] at heq; cases heq
    have hhistory : st.call.sent ++ [] = st.history wanted := hsends
    refine ⟨hrecorded, fun ch hch b hb ↦ ?_, ?_, h.sent, fun b hb ↦ ?_, fun _ ↦ h.scanned hopen,
      h.received⟩
    · cases hch
      cases hb
    · have heq : st.history wanted = st.call.sent := hhistory.symm.trans (List.append_nil _)
      show st.history wanted <+: st.call.sent
      exact ⟨[], (List.append_nil _).trans heq⟩
    · exact ⟨(h.earlier b hb).1, fun _ ↦ (h.earlier b hb).2 hopen⟩
  | @receive _ b channel hphase =>
    rw [hphase] at hsends
    have hopen : st.call.phase ≠ .idle := fun heq ↦ by rw [hphase] at heq; cases heq
    have hprefix : st.history wanted <+: st.call.sent := hsends
    have hgrows : st.call.sent <+: if wanted b then st.call.sent ++ [b] else st.call.sent := by
      split
      · exact List.prefix_append _ _
      · exact List.prefix_refl _
    refine ⟨hrecorded, fun ch hch d hd ↦ ?_, hprefix.trans hgrows, fun d hd ↦ ?_, fun d hd ↦ ?_,
      fun _ ↦ h.scanned hopen, Nat.le_trans h.received hgrows.length_le⟩
    · cases hch
      exact h.channel _ hphase d (List.mem_cons_of_mem _ hd)
    · rcases hb : wanted b with _ | _
      · simp only [hb, Bool.false_eq_true, if_false] at hd
        exact h.sent d hd
      · simp only [hb, if_true, List.mem_append, List.mem_singleton] at hd
        obtain hd | rfl := hd
        · exact h.sent d hd
        · obtain ⟨e, he, hkey, hwanted⟩ := h.channel _ hphase d List.mem_cons_self
          exact ⟨hb, e, he, hkey, hwanted.trans hb⟩
    · exact ⟨(h.earlier d hd).1, fun _ ↦ (h.earlier d hd).2 hopen⟩
  | close hopen =>
    refine ⟨hrecorded, (fun ch hch ↦ by cases hch), ?_, h.sent, fun b hb ↦ ?_,
      fun _ ↦ h.scanned hopen, h.received⟩
    · show st.call.sent <+: st.history wanted ∨ st.history wanted <+: st.call.sent
      rcases hphase : st.call.phase with _ | rest | channel | _ <;> rw [hphase] at hsends
      · exact absurd hphase hopen
      · exact .inl (hsends ▸ List.prefix_append _ _)
      · exact .inr hsends
      · exact hsends
    · exact ⟨(h.earlier b hb).1, fun _ ↦ (h.earlier b hb).2 hopen⟩

/-- What was sent stays, so what was received stays. -/
theorem Inv.current_call (h : Inv key wanted st) {l : CatchUp.Label β} {c : CatchUp.State β}
    (hstep : CatchUp.Step key wanted size l st.call c) :
    State.current { st with call := c } = st.current := by
  have hgrows : st.call.sent <+: c.sent := by
    cases hstep with
    | send _ => exact List.prefix_append _ _
    | receive _ =>
      show st.call.sent <+: if _ then _ else _
      split
      · exact List.prefix_append _ _
      · exact List.prefix_refl _
    | append | announce | scan | subscribe | close => exact List.prefix_refl _
  obtain ⟨more, hmore⟩ := hgrows
  show c.sent.take st.received = st.call.sent.take st.received
  rw [← hmore, List.take_append_of_le_length h.received]

theorem Inv.receive (h : Inv key wanted st) (hlt : st.received < st.call.sent.length) :
    Inv key wanted st.receive :=
  ⟨h.recorded, h.channel, h.sends, h.sent, h.earlier, h.scanned, Nat.succ_le_of_lt hlt⟩

/-- A new subscription keeps the invariant. -/
theorem Inv.redial (h : Inv key wanted st) : Inv key wanted st.redial := by
  have hrecorded := h.recorded
  refine ⟨⟨hrecorded.nodup, hrecorded.once, hrecorded.logged, List.nil_subset _⟩,
    (fun ch hch ↦ by cases hch), rfl, (fun b hb ↦ by cases hb), fun b hb ↦ ?_,
    fun hopen ↦ absurd rfl hopen, Nat.le_refl 0⟩
  refine ⟨?_, fun hopen ↦ absurd rfl hopen⟩
  obtain hb | hb := List.mem_append.1 hb
  · exact (h.earlier b hb).1
  · exact h.sent b (current_subset st hb)

/-- Before the first subscription. -/
theorem inv_start {log : List β} (hnodup : (log.map key).Nodup) :
    Inv key wanted ⟨⟨log, [], [], .idle, [], []⟩, 0, []⟩ where
  recorded := ⟨hnodup, List.nodup_nil, (fun b hb ↦ by cases hb), List.nil_subset _⟩
  channel ch hch := by cases hch
  sends := rfl
  sent b hb := by cases hb
  earlier b hb := by cases hb
  scanned hopen := absurd rfl hopen
  received := Nat.le_refl 0

/-- **Once the scan was received**, everything that was ever received is among what was received in
this subscription, up to copies. -/
theorem Inv.caught_up (h : Inv key wanted st) (hopen : st.call.phase ≠ .idle)
    (hreceived : (st.history wanted).length ≤ st.received) :
    st.history wanted <+: st.current ∧
      ∀ b ∈ st.earlier, ∃ c ∈ st.current, key c = key b := by
  have hhistory : st.history wanted <+: st.current := by
    have hlen := Nat.le_trans hreceived h.received
    have hsent : st.history wanted <+: st.call.sent := by
      have hsends := h.sends
      rcases hphase : st.call.phase with _ | rest | channel | _ <;> rw [hphase] at hsends
      · exact absurd hphase hopen
      · have heq : st.call.sent ++ rest = st.history wanted := hsends
        rw [← heq, List.length_append] at hlen
        have hnil : rest = [] := List.length_eq_zero_iff.1 (by omega)
        exact ⟨[], by rw [List.append_nil, ← heq, hnil, List.append_nil]⟩
      · exact hsends
      · exact hsends.elim (fun hshort ↦ hshort.eq_of_length_le hlen ▸ List.prefix_refl _)
          fun hlong ↦ hlong
    exact List.prefix_take_iff.2 ⟨hsent, hreceived⟩
  refine ⟨hhistory, fun b hb ↦ ?_⟩
  obtain ⟨-, c, hc, hkey, hwanted⟩ := (h.earlier b hb).2 hopen
  exact ⟨c, hhistory.subset (List.mem_reverse.2 (List.mem_filter.2 ⟨hc, hwanted⟩)), hkey⟩

/-- With operations that overwrite what they did before and are the same for copies, what was
received in earlier subscriptions makes no difference. -/
theorem foldl_flatMap_eq {σ ι : Type*} {act : σ → ι → σ} (hact : Replay.Overwriting act)
    {ops : β → List ι} (hops : ∀ b c, key c = key b → ops c = ops b) {earlier current : List β}
    (hcopies : ∀ b ∈ earlier, ∃ c ∈ current, key c = key b) (s : σ) :
    ((earlier ++ current).flatMap ops).foldl act s = (current.flatMap ops).foldl act s := by
  rw [List.flatMap_append]
  refine hact.foldl_append_of_subset (fun op hop ↦ ?_) s
  obtain ⟨b, hb, hop⟩ := List.mem_flatMap.1 hop
  obtain ⟨c, hc, hkey⟩ := hcopies b hb
  exact List.mem_flatMap.2 ⟨c, hc, hops b c hkey ▸ hop⟩

end Resume
