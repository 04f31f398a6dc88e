import GoBlockchain.Lib.Transition
import Mathlib.Data.List.Nodup

/-!
# Catching up with a growing log

A subscriber wants some of the items of a log that grows. It first gets the items that are there,
from a scan, and then subscribes to a channel for those to come. An item is appended to the log in
one step and announced to the subscribers in a later one, and the channel has a limited size. What
is announced may be a copy of what is in the log; items are told apart by their keys.

What was sent and what is still to be sent (`outgoing`) only grows, by the announcements that reach
the channel. An announcement is `Seamless` if it falls on the right side of the subscription:
between the scan and the subscription the item was scanned, and after the subscription it was not.
In a run of seamless announcements every announced item is sent or waits in the channel, and none is
sent twice (`Inv.step`). An item that is announced in between and was not scanned is never sent
(`Lost.step`), and one that was scanned and is announced afterwards goes out twice
(`Doubled.step`).
-/

namespace CatchUp

variable {β κ : Type*}

/-- How far the subscriber is. -/
inductive Phase (β : Type*)
  | idle
  /-- These items of the scan are still to be sent. -/
  | sending (rest : List β)
  /-- The subscription is in place, with these items in the channel. -/
  | live (channel : List β)
  | closed

structure State (β : Type*) where
  /-- The items of the log, newest first. -/
  log : List β
  /-- Items of the log that are not announced yet. -/
  pending : List β
  announced : List β
  phase : Phase β
  /-- The log as it was scanned. -/
  scanned : List β
  /-- What the subscriber was sent, oldest first. -/
  sent : List β

/-- The names of the steps. -/
inductive Label (β : Type*)
  | append (b : β)
  | announce (b : β)
  | scan
  | send
  | subscribe
  | receive
  | close

/-- An announced item is put into the channel, unless it is full. -/
def Phase.announce (size : ℕ) (b : β) : Phase β → Phase β
  | .live channel => .live (if channel.length < size then channel ++ [b] else channel)
  | phase => phase

/-- An item is taken from those that are not announced yet and is announced. -/
def State.announce (size : ℕ) (b : β) (before after : List β) (st : State β) : State β :=
  { st with
    pending := before ++ after
    announced := b :: st.announced
    phase := st.phase.announce size b }

/-- The log is scanned. -/
def State.scan (wanted : β → Bool) (st : State β) : State β :=
  { st with phase := .sending (st.log.filter wanted).reverse, scanned := st.log }

/-- What is still to be sent. -/
def Phase.waiting (wanted : β → Bool) : Phase β → List β
  | .sending rest => rest
  | .live channel => channel.filter wanted
  | .idle => []
  | .closed => []

/-- The scan was made and the subscriber is still there. -/
def Phase.Open : Phase β → Prop
  | .sending _ => True
  | .live _ => True
  | .idle => False
  | .closed => False

variable (key : β → κ) (wanted : β → Bool) (size : ℕ)

/-- The steps of the log and of the subscriber, in any order. -/
inductive Step : Label β → State β → State β → Prop
  | append {st : State β} {b c : β} : key c = key b → wanted c = wanted b →
      key b ∉ st.log.map key →
      Step (.append b) st { st with log := c :: st.log, pending := b :: st.pending }
  | announce {st : State β} {b : β} {before after : List β} : st.pending = before ++ b :: after →
      Step (.announce b) st (st.announce size b before after)
  | scan {st : State β} : st.phase = .idle → Step .scan st (st.scan wanted)
  | send {st : State β} {b : β} {rest : List β} : st.phase = .sending (b :: rest) →
      Step .send st { st with phase := .sending rest, sent := st.sent ++ [b] }
  | subscribe {st : State β} : st.phase = .sending [] →
      Step .subscribe st { st with phase := .live [] }
  | receive {st : State β} {b : β} {channel : List β} : st.phase = .live (b :: channel) →
      Step .receive st { st with
        phase := .live channel
        sent := if wanted b then st.sent ++ [b] else st.sent }
  | close {st : State β} : st.phase ≠ .idle → Step .close st { st with phase := .closed }

/-- The channel is not full when an item is announced. -/
def Roomy : Label β → State β → Prop
  | .announce _, st => ∀ channel, st.phase = .live channel → channel.length < size
  | _, _ => True

/-- A wanted item is announced on the right side of the subscription. -/
def Seamless : Label β → State β → Prop
  | .announce b, st => wanted b = true →
      (∀ rest, st.phase = .sending rest → key b ∈ st.scanned.map key) ∧
        ∀ channel, st.phase = .live channel → key b ∉ st.scanned.map key
  | _, _ => True

/-- What was sent and what is still to be sent. -/
def State.outgoing (st : State β) : List β := st.sent ++ st.phase.waiting wanted

/-- Every item is appended once and announced at most once. -/
structure Recorded (st : State β) : Prop where
  nodup : (st.log.map key).Nodup
  once : ((st.pending ++ st.announced).map key).Nodup
  logged : ∀ b ∈ st.pending ++ st.announced, ∃ c ∈ st.log, key c = key b ∧ wanted c = wanted b
  scanned : st.scanned ⊆ st.log

/-- What goes out is what is wanted. -/
structure Complete (st : State β) : Prop where
  nodup : ((st.outgoing wanted).map key).Nodup
  sound : ∀ k ∈ (st.outgoing wanted).map key, k ∈ st.scanned.map key ∨ k ∈ st.announced.map key
  complete : ∀ b, b ∈ st.scanned ∨ b ∈ st.announced → wanted b = true →
    key b ∈ (st.outgoing wanted).map key

/-- What holds along every run of seamless announcements. -/
structure Inv (st : State β) : Prop where
  recorded : Recorded key wanted st
  sent_nodup : (st.sent.map key).Nodup
  idle : st.phase = .idle → st.sent = []
  complete : st.phase.Open → Complete key wanted st

variable {key wanted size} {st st' : State β} {l : Label β}

theorem Recorded.step (h : Recorded key wanted st) (hstep : Step key wanted size l st st') :
    Recorded key wanted st' := by
  cases hstep with
  | @append _ b c hkey hwanted hfree =>
    have hnew : key b ∉ (st.pending ++ st.announced).map key := by
      intro hmem
      obtain ⟨b', hb', heq⟩ := List.mem_map.1 hmem
      obtain ⟨d, hd, hkey', -⟩ := h.logged b' hb'
      exact hfree (List.mem_map.2 ⟨d, hd, hkey'.trans heq⟩)
    refine ⟨?_, ?_, fun b' hb' ↦ ?_, fun d hd ↦ List.mem_cons_of_mem _ (h.scanned hd)⟩
    · exact List.nodup_cons.2 ⟨hkey ▸ hfree, h.nodup⟩
    · exact List.nodup_cons.2 ⟨hnew, h.once⟩
    · rcases List.mem_cons.1 hb' with rfl | hold
      · exact ⟨c, List.mem_cons_self, hkey, hwanted⟩
      · obtain ⟨d, hd, hsame⟩ := h.logged b' hold
        exact ⟨d, List.mem_cons_of_mem _ hd, hsame⟩
  | @announce _ b before after hpending =>
    have hperm : ((before ++ after) ++ b :: st.announced).Perm (st.pending ++ st.announced) := by
      rw [hpending, List.append_assoc, List.append_assoc, List.cons_append]
      exact (List.perm_middle.append_left before).trans (by simp)
    exact ⟨h.nodup, (hperm.map key).nodup_iff.2 h.once,
      fun c hc ↦ h.logged c (hperm.mem_iff.1 hc), h.scanned⟩
  | scan hidle => exact ⟨h.nodup, h.once, h.logged, List.Subset.refl _⟩
  | send _ => exact ⟨h.nodup, h.once, h.logged, h.scanned⟩
  | subscribe _ => exact ⟨h.nodup, h.once, h.logged, h.scanned⟩
  | receive _ => exact ⟨h.nodup, h.once, h.logged, h.scanned⟩
  | close _ => exact ⟨h.nodup, h.once, h.logged, h.scanned⟩

/-- What was scanned under the key of an item is wanted if the item is. -/
theorem Recorded.exists_scanned (h : Recorded key wanted st) {b : β}
    (hb : b ∈ st.pending ++ st.announced) (hscanned : key b ∈ st.scanned.map key) :
    ∃ c ∈ st.scanned, key c = key b ∧ wanted c = wanted b := by
  obtain ⟨c, hc, hkey⟩ := List.mem_map.1 hscanned
  obtain ⟨d, hd, hkey', hwanted⟩ := h.logged b hb
  have heq : c = d := List.inj_on_of_nodup_map h.nodup (h.scanned hc) hd (hkey.trans hkey'.symm)
  exact ⟨c, hc, hkey, heq ▸ hwanted⟩

/-- What is still to be announced was not announced. -/
theorem Recorded.key_notMem (h : Recorded key wanted st) {b : β} (hb : b ∈ st.pending) :
    key b ∉ st.announced.map key := by
  have honce := h.once
  rw [List.map_append, List.nodup_append] at honce
  exact fun hmem ↦ honce.2.2 _ (List.mem_map_of_mem hb) _ hmem rfl

/-! ### What goes out -/

/-- The channel after an announcement: what waits is what waited, and the item if it is wanted and
there is room. -/
theorem waiting_announce (b : β) (phase : Phase β) :
    (phase.announce size b).waiting wanted = phase.waiting wanted ∨
      (∃ channel, phase = .live channel) ∧ wanted b = true ∧
        (phase.announce size b).waiting wanted = phase.waiting wanted ++ [b] := by
  cases phase with
  | live channel =>
    show (if channel.length < size then channel ++ [b] else channel).filter wanted = _ ∨
      _ ∧ _ ∧ (if channel.length < size then channel ++ [b] else channel).filter wanted = _
    split
    · rcases hb : wanted b with _ | _
      · exact Or.inl (by simp [Phase.waiting, hb])
      · exact Or.inr ⟨⟨channel, rfl⟩, rfl, by simp [Phase.waiting, hb]⟩
    · exact Or.inl rfl
  | _ => exact Or.inl rfl

theorem announce_eq_idle {b : β} {phase : Phase β} :
    phase.announce size b = .idle ↔ phase = .idle := by
  cases phase <;> simp [Phase.announce]

theorem outgoing_send {b : β} {rest : List β} (h : st.phase = .sending (b :: rest)) :
    State.outgoing wanted { st with phase := .sending rest, sent := st.sent ++ [b] } =
      st.outgoing wanted := by
  simp [State.outgoing, h, Phase.waiting]

theorem outgoing_subscribe (h : st.phase = .sending []) :
    State.outgoing wanted { st with phase := .live [] } = st.outgoing wanted := by
  simp [State.outgoing, h, Phase.waiting]

theorem outgoing_receive {b : β} {channel : List β} (h : st.phase = .live (b :: channel)) :
    State.outgoing wanted { st with
      phase := .live channel
      sent := if wanted b then st.sent ++ [b] else st.sent } = st.outgoing wanted := by
  rcases hb : wanted b with _ | _
  · simp [State.outgoing, h, Phase.waiting, hb]
  · simp [State.outgoing, h, Phase.waiting, hb]

theorem open_announce {b : β} {phase : Phase β} : (phase.announce size b).Open ↔ phase.Open := by
  cases phase <;> exact Iff.rfl

/-- With the subscription in place and room in the channel, a wanted item is added to what goes
out. -/
theorem outgoing_announce_live {b : β} {before after channel : List β}
    (hlive : st.phase = .live channel) (hroom : channel.length < size) :
    (st.announce size b before after).outgoing wanted =
      st.outgoing wanted ++ [b].filter wanted := by
  have hchannel : (st.phase.announce size b).waiting wanted =
      st.phase.waiting wanted ++ [b].filter wanted := by
    rw [hlive, Phase.announce, if_pos hroom]
    exact List.filter_append ..
  show st.sent ++ (st.phase.announce size b).waiting wanted = st.sent ++ _ ++ _
  rw [hchannel, List.append_assoc]

/-- **What goes out only grows**, by what is announced, until the subscriber leaves. -/
theorem Step.outgoing (hopen : st.phase.Open) (h : Step key wanted size l st st') :
    st'.phase = .closed ∨ st'.phase.Open ∧ (st'.outgoing wanted = st.outgoing wanted ∨
      ∃ b channel, l = .announce b ∧ st.phase = .live channel ∧ wanted b = true ∧
        st'.outgoing wanted = st.outgoing wanted ++ [b]) := by
  cases h with
  | append _ _ _ => exact Or.inr ⟨hopen, Or.inl rfl⟩
  | @announce _ b before after hpending =>
    refine Or.inr ⟨open_announce.2 hopen, ?_⟩
    rcases @waiting_announce _ wanted size b st.phase with hsame | ⟨⟨channel, hlive⟩, hb, hnew⟩
    · exact Or.inl (congrArg (st.sent ++ ·) hsame)
    · refine Or.inr ⟨b, channel, rfl, hlive, hb, ?_⟩
      show st.sent ++ (st.phase.announce size b).waiting wanted = st.sent ++ _ ++ [b]
      rw [hnew, List.append_assoc]
  | scan hidle =>
    rw [hidle] at hopen
    exact hopen.elim
  | send hsending => exact Or.inr ⟨trivial, Or.inl (outgoing_send hsending)⟩
  | subscribe hsending => exact Or.inr ⟨trivial, Or.inl (outgoing_subscribe hsending)⟩
  | receive hlive => exact Or.inr ⟨trivial, Or.inl (outgoing_receive hlive)⟩
  | close _ => exact Or.inl rfl

/-! ### Runs of seamless announcements -/

theorem Complete.congr (h : Complete key wanted st)
    (hout : st'.outgoing wanted = st.outgoing wanted) (hscanned : st'.scanned = st.scanned)
    (hannounced : st'.announced = st.announced) : Complete key wanted st' :=
  ⟨hout ▸ h.nodup, hout ▸ hscanned ▸ hannounced ▸ h.sound,
    hout ▸ hscanned ▸ hannounced ▸ h.complete⟩

/-- What the scan finds goes out, and it is all there is. -/
theorem complete_scan (h : Recorded key wanted st) (hsent : st.sent = []) :
    Complete key wanted (st.scan wanted) := by
  have hout : (st.scan wanted).outgoing wanted = (st.log.filter wanted).reverse := by
    show st.sent ++ (st.log.filter wanted).reverse = _
    rw [hsent, List.nil_append]
  refine ⟨?_, fun k hk ↦ ?_, fun b hb hwanted ↦ ?_⟩
  · rw [hout, List.map_reverse, List.nodup_reverse]
    exact h.nodup.sublist (List.filter_sublist.map key)
  · rw [hout, List.map_reverse, List.mem_reverse] at hk
    exact Or.inl ((List.filter_sublist.map key).subset hk)
  · have hlogged : ∃ c ∈ st.log, key c = key b ∧ wanted c = wanted b := by
      rcases hb with hscanned | hannounced
      · exact ⟨b, hscanned, rfl, rfl⟩
      · exact h.logged b (List.mem_append_right _ hannounced)
    obtain ⟨c, hc, hkey, heq⟩ := hlogged
    rw [hout, List.map_reverse, List.mem_reverse]
    exact List.mem_map.2 ⟨c, List.mem_filter.2 ⟨hc, heq.trans hwanted⟩, hkey⟩

/-- An announcement that adds nothing to what goes out, of an item that is there already or is not
wanted. -/
theorem Complete.announce_of_eq (h : Complete key wanted st) {b : β} {before after : List β}
    (hout : (st.announce size b before after).outgoing wanted = st.outgoing wanted)
    (hb : wanted b = true → key b ∈ (st.outgoing wanted).map key) :
    Complete key wanted (st.announce size b before after) := by
  refine ⟨hout ▸ h.nodup, fun k hk ↦ ?_, fun c hc hwanted ↦ ?_⟩
  · rw [hout] at hk
    exact (h.sound k hk).imp_right (List.mem_cons_of_mem (key b))
  · rw [hout]
    rcases hc with hscanned | hannounced
    · exact h.complete c (Or.inl hscanned) hwanted
    · rcases List.mem_cons.1 hannounced with rfl | hannounced
      · exact hb hwanted
      · exact h.complete c (Or.inr hannounced) hwanted

/-- An announcement that reaches the channel, of an item that did not go out yet. -/
theorem Complete.announce_of_append (h : Complete key wanted st) {b : β} {before after : List β}
    (hout : (st.announce size b before after).outgoing wanted = st.outgoing wanted ++ [b])
    (hnew : key b ∉ (st.outgoing wanted).map key) :
    Complete key wanted (st.announce size b before after) := by
  have hkeys : ((st.announce size b before after).outgoing wanted).map key =
      (st.outgoing wanted).map key ++ [key b] := by
    rw [hout, List.map_append]
    rfl
  refine ⟨?_, fun k hk ↦ ?_, fun c hc hwanted ↦ ?_⟩
  · rw [hkeys]
    exact (List.perm_append_singleton _ _).nodup_iff.2 (List.nodup_cons.2 ⟨hnew, h.nodup⟩)
  · rw [hkeys] at hk
    rcases List.mem_append.1 hk with hold | hk
    · exact (h.sound k hold).imp_right (List.mem_cons_of_mem (key b))
    · rw [List.mem_singleton.1 hk]
      exact Or.inr List.mem_cons_self
  · rw [hkeys]
    rcases hc with hscanned | hannounced
    · exact List.mem_append_left _ (h.complete c (Or.inl hscanned) hwanted)
    · rcases List.mem_cons.1 hannounced with rfl | hannounced
      · exact List.mem_append_right _ (List.mem_singleton_self _)
      · exact List.mem_append_left _ (h.complete c (Or.inr hannounced) hwanted)

/-- A wanted item goes out if it was scanned. -/
theorem Complete.mem_of_scanned (h : Complete key wanted st) (hrec : Recorded key wanted st) {b : β}
    (hb : b ∈ st.pending) (hscanned : key b ∈ st.scanned.map key) (hwanted : wanted b = true) :
    key b ∈ (st.outgoing wanted).map key := by
  obtain ⟨c, hc, hkey, heq⟩ := hrec.exists_scanned (List.mem_append_left _ hb) hscanned
  exact hkey ▸ h.complete c (Or.inl hc) (heq.trans hwanted)

/-- **A seamless announcement keeps what goes out complete.** -/
theorem Complete.announce (h : Complete key wanted st) (hrec : Recorded key wanted st)
    (hopen : st.phase.Open) {b : β} {before after : List β}
    (hpending : st.pending = before ++ b :: after) (hroomy : Roomy size (.announce b) st)
    (hseamless : Seamless key wanted (.announce b) st) :
    Complete key wanted (st.announce size b before after) := by
  have hb : b ∈ st.pending := hpending ▸ List.mem_append_right _ List.mem_cons_self
  rcases hphase : st.phase with _ | rest | channel | _
  · rw [hphase] at hopen
    exact hopen.elim
  · refine h.announce_of_eq ?_ fun hwanted ↦ ?_
    · show st.sent ++ (st.phase.announce size b).waiting wanted = st.sent ++ _
      rw [hphase]
      rfl
    · exact h.mem_of_scanned hrec hb ((hseamless hwanted).1 rest hphase) hwanted
  · have hout : (st.announce size b before after).outgoing wanted =
        st.outgoing wanted ++ [b].filter wanted :=
      outgoing_announce_live hphase (hroomy channel hphase)
    rcases hwanted : wanted b with _ | _
    · refine h.announce_of_eq ?_ fun htrue ↦ ?_
      · simpa [hwanted] using hout
      · rw [hwanted] at htrue
        cases htrue
    · refine h.announce_of_append (by simpa [hwanted] using hout) fun hmem ↦ ?_
      rcases h.sound _ hmem with hscanned | hannounced
      · exact (hseamless hwanted).2 channel hphase hscanned
      · exact hrec.key_notMem hb hannounced
  · rw [hphase] at hopen
    exact hopen.elim

theorem Inv.of_outgoing_eq (h : Inv key wanted st) (hrec : Recorded key wanted st')
    (hopen : st.phase.Open) (hopen' : st'.phase.Open)
    (hout : st'.outgoing wanted = st.outgoing wanted) (hscanned : st'.scanned = st.scanned)
    (hannounced : st'.announced = st.announced) : Inv key wanted st' := by
  have hcomplete := (h.complete hopen).congr hout hscanned hannounced
  refine ⟨hrec, ?_, fun hidle ↦ ?_, fun _ ↦ hcomplete⟩
  · exact hcomplete.nodup.sublist ((List.sublist_append_left _ _).map key)
  · rw [hidle] at hopen'
    exact hopen'.elim

/-- **One step of a run of seamless announcements.** -/
theorem Inv.step (h : Inv key wanted st) (hstep : Step key wanted size l st st')
    (hroomy : Roomy size l st) (hseamless : Seamless key wanted l st) : Inv key wanted st' := by
  have hrec := h.recorded.step hstep
  cases hstep with
  | append _ _ _ =>
    exact ⟨hrec, h.sent_nodup, h.idle, fun hopen ↦ (h.complete hopen).congr rfl rfl rfl⟩
  | @announce _ b before after hpending =>
    refine ⟨hrec, h.sent_nodup, fun hidle ↦ h.idle (announce_eq_idle.1 hidle), fun hopen ↦ ?_⟩
    have hopen := open_announce.1 hopen
    exact (h.complete hopen).announce h.recorded hopen hpending hroomy hseamless
  | scan hidle =>
    refine ⟨hrec, h.sent_nodup, fun hsending ↦ ?_, fun _ ↦ ?_⟩
    · cases hsending
    · exact complete_scan h.recorded (h.idle hidle)
  | send hsending =>
    exact h.of_outgoing_eq hrec (hsending ▸ trivial) trivial (outgoing_send hsending) rfl rfl
  | subscribe hsending =>
    exact h.of_outgoing_eq hrec (hsending ▸ trivial) trivial (outgoing_subscribe hsending) rfl rfl
  | receive hlive =>
    exact h.of_outgoing_eq hrec (hlive ▸ trivial) trivial (outgoing_receive hlive) rfl rfl
  | close _ =>
    refine ⟨hrec, h.sent_nodup, fun hclosed ↦ ?_, fun hopen ↦ hopen.elim⟩
    cases hclosed

/-- Every announced item that is wanted is sent or in the channel. -/
theorem Inv.delivered (h : Inv key wanted st) {channel : List β} (hlive : st.phase = .live channel)
    {b : β} (hb : b ∈ st.announced) (hwanted : wanted b = true) :
    key b ∈ (st.sent ++ channel).map key := by
  have hmem := (h.complete (hlive ▸ trivial)).complete b (Or.inr hb) hwanted
  rw [State.outgoing, hlive] at hmem
  exact ((List.Sublist.append_left List.filter_sublist st.sent).map key).subset hmem

/-! ### Announcements on the wrong side -/

/-- What is held for the subscriber. -/
def Phase.buffer : Phase β → List β
  | .sending rest => rest
  | .live channel => channel
  | .idle => []
  | .closed => []

/-- The item was announced, and no item with its key will be sent. -/
structure Lost (key : β → κ) (wanted : β → Bool) (b : β) (st : State β) : Prop where
  recorded : Recorded key wanted st
  announced : b ∈ st.announced
  scanned : st.phase ≠ .idle
  missing : key b ∉ (st.sent ++ st.phase.buffer).map key

/-- An item that is announced between the scan and the subscription and was not scanned is lost. -/
theorem Inv.lost (h : Inv key wanted st) {b : β} {before after rest : List β}
    (hpending : st.pending = before ++ b :: after) (hsending : st.phase = .sending rest)
    (hnot : key b ∉ st.scanned.map key) : Lost key wanted b (st.announce size b before after) := by
  have hb : b ∈ st.pending := hpending ▸ List.mem_append_right _ List.mem_cons_self
  have hstep : Step key wanted size (.announce b) st (st.announce size b before after) :=
    .announce hpending
  have hphase : (st.announce size b before after).phase = .sending rest := by
    show st.phase.announce size b = _
    rw [hsending]
    rfl
  refine ⟨h.recorded.step hstep, List.mem_cons_self, ?_, fun hmem ↦ ?_⟩
  · rw [hphase]
    intro hidle
    cases hidle
  · have hout : key b ∈ (st.outgoing wanted).map key := by
      rw [hphase] at hmem
      rw [State.outgoing, hsending]
      exact hmem
    rcases (h.complete (hsending ▸ trivial)).sound _ hout with hscanned | hannounced
    · exact hnot hscanned
    · exact h.recorded.key_notMem hb hannounced

theorem mem_buffer_announce {b c : β} {phase : Phase β}
    (h : c ∈ (phase.announce size b).buffer) : c ∈ phase.buffer ∨ c = b := by
  cases phase with
  | live channel =>
    change c ∈ if channel.length < size then channel ++ [b] else channel at h
    split at h
    · exact (List.mem_append.1 h).imp_right List.mem_singleton.1
    · exact Or.inl h
  | _ => exact Or.inl h

/-- **A lost item stays lost.** -/
theorem Lost.step {b : β} (h : Lost key wanted b st) (hstep : Step key wanted size l st st') :
    Lost key wanted b st' := by
  have hrec := h.recorded.step hstep
  have hmissing := h.missing
  cases hstep with
  | append _ _ _ => exact ⟨hrec, h.announced, h.scanned, h.missing⟩
  | @announce _ c before after hpending =>
    have hc : c ∈ st.pending := hpending ▸ List.mem_append_right _ List.mem_cons_self
    refine ⟨hrec, List.mem_cons_of_mem _ h.announced,
      fun hidle ↦ h.scanned (announce_eq_idle.1 hidle), fun hmem ↦ ?_⟩
    obtain ⟨d, hd, hkey⟩ := List.mem_map.1 hmem
    rcases List.mem_append.1 hd with hsent | hbuffer
    · exact hmissing (List.mem_map.2 ⟨d, List.mem_append_left _ hsent, hkey⟩)
    · rcases mem_buffer_announce hbuffer with hold | rfl
      · exact hmissing (List.mem_map.2 ⟨d, List.mem_append_right _ hold, hkey⟩)
      · exact h.recorded.key_notMem hc (hkey ▸ List.mem_map_of_mem h.announced)
  | scan hidle => exact absurd hidle h.scanned
  | @send _ c rest hsending =>
    rw [hsending] at hmissing
    refine ⟨hrec, h.announced, fun hidle ↦ ?_, fun hmem ↦ hmissing ?_⟩
    · cases hidle
    · rwa [List.append_assoc] at hmem
  | subscribe hsending =>
    rw [hsending] at hmissing
    refine ⟨hrec, h.announced, fun hidle ↦ ?_, hmissing⟩
    cases hidle
  | @receive _ c channel hlive =>
    rw [hlive] at hmissing
    refine ⟨hrec, h.announced, fun hidle ↦ ?_, fun hmem ↦ hmissing ?_⟩
    · cases hidle
    · change key b ∈ ((if wanted c then st.sent ++ [c] else st.sent) ++ channel).map key at hmem
      show key b ∈ (st.sent ++ c :: channel).map key
      split at hmem
      · rwa [List.append_assoc] at hmem
      · exact ((List.Sublist.append_left (List.sublist_cons_self c channel) st.sent).map
          key).subset hmem
  | close _ =>
    refine ⟨hrec, h.announced, fun hidle ↦ ?_, fun hmem ↦ hmissing ?_⟩
    · cases hidle
    · exact ((List.Sublist.append_left (List.nil_sublist _) st.sent).map key).subset hmem

/-- What goes out holds an item twice, unless the subscriber has left. -/
def Doubled (key : β → κ) (wanted : β → Bool) (st : State β) : Prop :=
  st.phase = .closed ∨ st.phase.Open ∧ ¬ ((st.outgoing wanted).map key).Nodup

/-- After the subscription, an item that was scanned goes out a second time. -/
theorem Inv.doubled (h : Inv key wanted st) {b : β} {before after channel : List β}
    (hpending : st.pending = before ++ b :: after) (hlive : st.phase = .live channel)
    (hroom : channel.length < size) (hwanted : wanted b = true)
    (hscanned : key b ∈ st.scanned.map key) :
    Doubled key wanted (st.announce size b before after) := by
  have hopen : st.phase.Open := hlive ▸ trivial
  have hb : b ∈ st.pending := hpending ▸ List.mem_append_right _ List.mem_cons_self
  have hmem := (h.complete hopen).mem_of_scanned h.recorded hb hscanned hwanted
  have hout : (st.announce size b before after).outgoing wanted = st.outgoing wanted ++ [b] := by
    rw [outgoing_announce_live hlive hroom, List.filter_cons_of_pos hwanted, List.filter_nil]
  refine Or.inr ⟨open_announce.2 hopen, fun hnodup ↦ ?_⟩
  rw [hout, List.map_append] at hnodup
  exact (List.nodup_cons.1 ((List.perm_append_singleton _ _).nodup_iff.1 hnodup)).1 hmem

theorem Step.closed (h : Step key wanted size l st st') (hclosed : st.phase = .closed) :
    st'.phase = .closed := by
  cases h with
  | append _ _ _ => exact hclosed
  | @announce _ b before after _ =>
    show st.phase.announce size b = .closed
    rw [hclosed]
    rfl
  | scan hphase =>
    rw [hclosed] at hphase
    cases hphase
  | send hphase =>
    rw [hclosed] at hphase
    cases hphase
  | subscribe hphase =>
    rw [hclosed] at hphase
    cases hphase
  | receive hphase =>
    rw [hclosed] at hphase
    cases hphase
  | close _ => rfl

/-- **What goes out twice stays so.** -/
theorem Doubled.step (h : Doubled key wanted st) (hstep : Step key wanted size l st st') :
    Doubled key wanted st' := by
  rcases h with hclosed | ⟨hopen, hdouble⟩
  · exact Or.inl (hstep.closed hclosed)
  · refine (hstep.outgoing hopen).imp_right fun ⟨hopen', hout⟩ ↦ ⟨hopen', fun hnodup ↦ hdouble ?_⟩
    rcases hout with hsame | ⟨b, channel, -, -, -, happend⟩
    · rwa [hsame] at hnodup
    · rw [happend, List.map_append] at hnodup
      exact hnodup.sublist (List.sublist_append_left _ _)

end CatchUp
