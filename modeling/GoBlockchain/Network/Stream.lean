import GoBlockchain.Core.Reception
import GoBlockchain.Core.Mining
import GoBlockchain.Lib.CatchUp

/-!
# The block stream

`StreamNewBlocks` first sends a client the blocks of the chain from a height on, and then the blocks
that `notifyBlock` puts into its channel. Other goroutines add blocks to the chain and call
`notifyBlock` for each of them a moment later, in any order with the steps of the stream. The model
is a step relation for one client; `Blocks` reads the tip once and old blocks do not change, so the
scan is one step.

The stream is an instance of a subscriber that catches up with a log (`Step.simulates`): the log is
the chain, the items are the blocks as gob returns them, and the channel has ten slots. A chain that
`Blocks` can walk to the end holds no block twice (`nodup_canon_of_blocks`), so nothing has to be
assumed about hashes.

The scan comes *before* the subscription. A block that is added after the scan and notified before
the subscription is in neither, and one that is scanned and notified after the subscription is in
both. The stream has no gap and repeats nothing exactly as long as no notification falls on the
wrong side (`noGap_of_run`); `streamNewBlocks_skips_block` loses a block.
-/

namespace GoBlockchain.Stream

open Blockchain Transition

/-- The slots of the channel that `SubscribeBlocks` makes. -/
def channelSize : ℕ := 10

/-- The label of a step: the chain takes in a block (`append`), `notifyBlock` is called for it
(`announce`), or `StreamNewBlocks` goes on. -/
abbrev Label := CatchUp.Label Block

/-- How far `StreamNewBlocks` is: it was called (`idle`), it sends the historical blocks
(`sending`), it is subscribed with a channel (`live`), or it has returned (`closed`). -/
abbrev Phase := CatchUp.Phase Block

/-- The chain with the blocks to be notified, and one call of `StreamNewBlocks`. -/
structure State where
  bc : Blockchain
  /-- Blocks that were added and for which `notifyBlock` is still to be called. -/
  pending : List Block
  /-- Blocks for which `notifyBlock` was called. -/
  notified : List Block
  phase : Phase
  /-- What the loop over `Blocks` saw. -/
  scanned : List Block
  /-- The blocks of the events sent to the client, oldest first. -/
  sent : List Block

/-- Before the call of `StreamNewBlocks`. -/
def State.init (bc : Blockchain) : State := ⟨bc, [], [], .idle, [], []⟩

/-- The blocks the client asked for. -/
def wanted (startHeight : Int64) (b : Block) : Bool := decide (startHeight ≤ b.height)

/-- The historical blocks, in the order in which they are appended. -/
def historical (startHeight : Int64) (blocks : List Block) : List Block :=
  blocks.filter (wanted startHeight)

/-- `notifyBlock`, for the subscriber of the stream: the block is skipped if the buffer is full. -/
def notifyBlock (b : Block) : Phase → Phase
  | .live ch => .live (if ch.length < channelSize then ch ++ [b] else ch)
  | phase => phase

/-- The block was added, and the chain is now the block on top of what it was. -/
structure OnTop (rt : Runtime) (bc : Blockchain) (b : Block) (bc' : Blockchain) : Prop where
  added : (∃ authorizedKeys, bc.addBlock rt authorizedKeys b = .ok (.ok (), bc')) ∨
    ∃ env txs, bc.mineBlock rt env txs = .ok (.ok b, bc')
  blocks : ∃ bs, bc.blocks rt = .ok bs ∧ bc'.blocks rt = .ok (b.canon :: bs)

/-- The steps of the chain and of `StreamNewBlocks`, in any order. -/
inductive Step (rt : Runtime) (startHeight : Int64) : Label → State → State → Prop
  | add {st : State} {b : Block} {bc' : Blockchain} : OnTop rt st.bc b bc' →
      Step rt startHeight (.append b) st { st with bc := bc', pending := b :: st.pending }
  | notify {st : State} {b : Block} {before after : List Block} :
      st.pending = before ++ b :: after →
      Step rt startHeight (.announce b) st { st with
        pending := before ++ after
        notified := b :: st.notified
        phase := notifyBlock b st.phase }
  | scan {st : State} {bs : List Block} : 0 < startHeight → st.phase = .idle →
      st.bc.blocks rt = .ok bs →
      Step rt startHeight .scan st { st with
        phase := .sending (historical startHeight bs).reverse
        scanned := bs }
  -- without a start height there are no historical blocks
  | skip {st : State} : ¬ 0 < startHeight → st.phase = .idle →
      Step rt startHeight .scan st { st with phase := .sending [] }
  | send {st : State} {b : Block} {rest : List Block} : st.phase = .sending (b :: rest) →
      Step rt startHeight .send st { st with phase := .sending rest, sent := st.sent ++ [b] }
  | subscribeBlocks {st : State} : st.phase = .sending [] →
      Step rt startHeight .subscribe st { st with phase := .live [] }
  | receive {st : State} {b : Block} {ch : List Block} : st.phase = .live (b :: ch) →
      Step rt startHeight .receive st { st with
        phase := .live ch
        sent := if b.height < startHeight then st.sent else st.sent ++ [b] }
  -- the client is gone, or a send failed
  | close {st : State} : st.phase ≠ .idle →
      Step rt startHeight .close st { st with phase := .closed }

/-- The buffer has a free slot when a block is notified. -/
def Roomy : Label → State → Prop
  | .announce _, st => ∀ ch, st.phase = .live ch → ch.length < channelSize
  | _, _ => True

/-- The block was on the chain when it was scanned. -/
def State.Scanned (st : State) (b : Block) : Prop := b.canon ∈ st.scanned.map Block.canon

/-- A block the client asked for is notified on the right side of the subscription: between the scan
and the subscription it is one of those that were scanned, and after the subscription it is not. -/
def Seamless (startHeight : Int64) : Label → State → Prop
  | .announce b, st => startHeight ≤ b.height →
      (∀ rest, st.phase = .sending rest → st.Scanned b) ∧
        ∀ ch, st.phase = .live ch → ¬ st.Scanned b
  | _, _ => True

/-- A step that does not find the buffer full. -/
def RoomyStep (rt : Runtime) (startHeight : Int64) (st st' : State) : Prop :=
  ∃ l, Step rt startHeight l st st' ∧ Roomy l st

/-- A step that, moreover, notifies on the right side of the subscription. -/
def SeamlessStep (rt : Runtime) (startHeight : Int64) (st st' : State) : Prop :=
  ∃ l, Step rt startHeight l st st' ∧ Roomy l st ∧ Seamless startHeight l st

/-- A chain that `Blocks` walks to the end, before the call of `StreamNewBlocks`. -/
def Start (rt : Runtime) (st : State) : Prop :=
  ∃ bc bs, bc.blocks rt = .ok bs ∧ st = State.init bc

/-- The block is on the chain that `Blocks` yields. -/
def OnChain (rt : Runtime) (bc : Blockchain) (b : Block) : Prop :=
  ∃ bs, bc.blocks rt = .ok bs ∧ b.canon ∈ bs.map Block.canon

/-- **The stream has no gap**: once the subscription is in place, every block of the chain from the
start height on that was notified has been sent or waits in the channel, and no block has been sent
twice. -/
structure NoGap (rt : Runtime) (startHeight : Int64) (st : State) : Prop where
  delivered : ∀ ch, st.phase = .live ch → ∀ b ∈ st.notified, OnChain rt st.bc b →
    startHeight ≤ b.height → b.canon ∈ (st.sent ++ ch).map Block.canon
  once : (st.sent.map Block.canon).Nodup

variable {rt : Runtime} {startHeight : Int64} {bc bc' : Blockchain} {b : Block} {l : Label}
  {st st' : State}

/-! ### Blocks on the chain -/

/-- A chain that `Blocks` walks to the end holds no block twice: the walk goes on from a block by
its `PrevBlockHash`. -/
theorem nodup_canon_of_blocks {bs : List Block} (h : bc.blocks rt = .ok bs) :
    (bs.map Block.canon).Nodup := by
  refine (blocks_eq_ok_iff.1 h).nodup_map_of_next fun k c k' l d l' hk hl heq ↦ ?_
  rw [(nextBlock_eq_some_iff.1 hk).2.1, (nextBlock_eq_some_iff.1 hl).2.1]
  simpa using congrArg Block.prevBlockHash heq

/-- On a mined chain a block that `MineBlock` makes is on top exactly if its hash was free. -/
theorem onTop_of_mineBlock_iff (hchain : MinedChain rt bc) {bs : List Block}
    (hbs : bc.blocks rt = .ok bs) {env : MineEnv} {txs : List Transaction}
    (h : bc.mineBlock rt env txs = .ok (.ok b, bc')) :
    OnTop rt bc b bc' ↔ storedBlock rt bc.db b.hash = none := by
  have hmined := mined_of_mineBlock hchain.wellFormed h
  constructor
  · intro htop
    obtain ⟨bs', -, hnew⟩ := htop.blocks
    exact ((hmined.blocks_eq_ok_iff hchain).1 hnew).1
  · intro hfree
    exact ⟨Or.inr ⟨env, txs, h⟩, bs, hbs, (hmined.blocks_eq_ok_iff hchain).2 ⟨hfree, bs, hbs, rfl⟩⟩

/-! ### The stream as a subscriber that catches up -/

/-- The state as the library sees it. -/
def State.view (log : List Block) (st : State) : CatchUp.State Block :=
  ⟨log, st.pending, st.notified, st.phase, st.scanned, st.sent⟩

/-- What the library says holds of the chain `Blocks` yields. -/
def Viewed (rt : Runtime) (P : CatchUp.State Block → Prop) (st : State) : Prop :=
  ∃ log, st.bc.blocks rt = .ok log ∧ P (st.view log)

theorem notifyBlock_eq (b : Block) (phase : Phase) :
    notifyBlock b phase = phase.announce channelSize b := by
  cases phase <;> rfl

theorem wanted_iff : wanted startHeight b = true ↔ startHeight ≤ b.height := decide_eq_true_iff

theorem ite_lt_eq_ite_wanted (sent : List Block) :
    (if b.height < startHeight then sent else sent ++ [b]) =
      if wanted startHeight b then sent ++ [b] else sent := by
  split
  · next hlt => rw [if_neg (by simpa [wanted_iff] using hlt)]
  · next hle => rw [if_pos (wanted_iff.2 (Int64.not_lt.1 hle))]

/-- **Every step of the stream is one of the library.** -/
theorem Step.simulates (hstart : 0 < startHeight) {log : List Block}
    (hlog : st.bc.blocks rt = .ok log) (h : Step rt startHeight l st st') :
    ∃ log', st'.bc.blocks rt = .ok log' ∧
      CatchUp.Step Block.canon (wanted startHeight) channelSize l (st.view log)
        (st'.view log') := by
  cases h with
  | @add _ b bc' htop =>
    obtain ⟨bs, hbs, hbs'⟩ := htop.blocks
    obtain rfl := Except.ok.inj (hlog.symm.trans hbs)
    have hfree : b.canon ∉ log.map Block.canon := by
      simpa using (List.nodup_cons.1 (nodup_canon_of_blocks hbs')).1
    exact ⟨b.canon :: log, hbs', .append b.canon_canon rfl hfree⟩
  | @notify _ b before after hpending =>
    refine ⟨log, hlog, ?_⟩
    rw [notifyBlock_eq]
    exact .announce hpending
  | @scan _ bs _ hidle hbs =>
    obtain rfl := Except.ok.inj (hlog.symm.trans hbs)
    exact ⟨log, hlog, .scan hidle⟩
  | skip hnot _ => exact absurd hstart hnot
  | send hsending => exact ⟨log, hlog, .send hsending⟩
  | subscribeBlocks hsending => exact ⟨log, hlog, .subscribe hsending⟩
  | receive hlive =>
    refine ⟨log, hlog, ?_⟩
    rw [ite_lt_eq_ite_wanted]
    exact .receive hlive
  | close hidle => exact ⟨log, hlog, .close hidle⟩

theorem Viewed.step {P Q : CatchUp.State Block → Prop} (hstart : 0 < startHeight)
    (h : Viewed rt P st) (hstep : Step rt startHeight l st st')
    (hpq : ∀ v v', CatchUp.Step Block.canon (wanted startHeight) channelSize l v v' → P v →
      Q v') : Viewed rt Q st' := by
  obtain ⟨log, hlog, hview⟩ := h
  obtain ⟨log', hlog', hstep'⟩ := hstep.simulates hstart hlog
  exact ⟨log', hlog', hpq _ _ hstep' hview⟩

/-! ### Runs -/

/-- What the library keeps along the runs of seamless notifications. -/
def Sound (rt : Runtime) (startHeight : Int64) : State → Prop :=
  Viewed rt (CatchUp.Inv Block.canon (wanted startHeight))

theorem Start.sound (h : Start rt st) : Sound rt startHeight st := by
  obtain ⟨bc, bs, hbs, rfl⟩ := h
  refine ⟨bs, hbs, ⟨nodup_canon_of_blocks hbs, List.nodup_nil, fun b hb ↦ ?_, List.nil_subset _⟩,
    List.nodup_nil, fun _ ↦ rfl, False.elim⟩
  exact absurd hb List.not_mem_nil

theorem Roomy.view (h : Roomy l st) (log : List Block) :
    CatchUp.Roomy channelSize l (st.view log) := by
  cases l with
  | announce b => exact h
  | _ => trivial

theorem Seamless.view (h : Seamless startHeight l st) (log : List Block) :
    CatchUp.Seamless Block.canon (wanted startHeight) l (st.view log) := by
  cases l with
  | announce b => exact fun hwanted ↦ h (wanted_iff.1 hwanted)
  | _ => trivial

theorem SeamlessStep.sound (hstart : 0 < startHeight) (h : SeamlessStep rt startHeight st st')
    (hst : Sound rt startHeight st) : Sound rt startHeight st' := by
  obtain ⟨l, hstep, hroomy, hseamless⟩ := h
  obtain ⟨log, hlog, hinv⟩ := hst
  obtain ⟨log', hlog', hstep'⟩ := hstep.simulates hstart hlog
  exact ⟨log', hlog', hinv.step hstep' (hroomy.view log) (hseamless.view log)⟩

theorem sound_of_reachable (hstart : 0 < startHeight)
    (h : Reachable (Start rt) (SeamlessStep rt startHeight) st) : Sound rt startHeight st :=
  h.invariant (fun _ hinit ↦ hinit.sound) fun _ _ _ hst hstep ↦ hstep.sound hstart hst

theorem Sound.noGap (h : Sound rt startHeight st) : NoGap rt startHeight st := by
  obtain ⟨log, -, hinv⟩ := h
  refine ⟨fun ch hlive b hb _ hheight ↦ ?_, hinv.sent_nodup⟩
  exact hinv.delivered hlive hb (wanted_iff.2 hheight)

/-- The stream will never be without a gap again, once the channel is drained. -/
def Broken (rt : Runtime) (startHeight : Int64) (st : State) : Prop :=
  (∃ b, startHeight ≤ b.height ∧
    Viewed rt (CatchUp.Lost Block.canon (wanted startHeight) b) st) ∨
  Viewed rt (CatchUp.Doubled Block.canon (wanted startHeight)) st

/-- **A notification on the wrong side breaks the stream.** -/
theorem Sound.broken (hst : Sound rt startHeight st) (h : Step rt startHeight l st st')
    (hroomy : Roomy l st) (hnot : ¬ Seamless startHeight l st) : Broken rt startHeight st' := by
  obtain ⟨log, hlog, hinv⟩ := hst
  cases h with
  | @notify _ b before after hpending =>
    have hview : State.view log { st with
        pending := before ++ after
        notified := b :: st.notified
        phase := notifyBlock b st.phase } =
        (st.view log).announce channelSize b before after := by
      rw [notifyBlock_eq]
      rfl
    simp only [Seamless, not_forall, not_and_or] at hnot
    obtain ⟨hheight, ⟨rest, hsending, hmissed⟩ | ⟨ch, hlive, hscanned⟩⟩ := hnot
    · exact Or.inl ⟨b, hheight, log, hlog, hview ▸ hinv.lost hpending hsending hmissed⟩
    · refine Or.inr ⟨log, hlog, hview ▸ ?_⟩
      exact hinv.doubled hpending hlive (hroomy ch hlive) (wanted_iff.2 hheight)
        (not_not.1 hscanned)
  | _ => exact absurd trivial hnot

theorem Broken.step (hstart : 0 < startHeight) (h : Broken rt startHeight st)
    (hstep : Step rt startHeight l st st') : Broken rt startHeight st' := by
  rcases h with ⟨b, hheight, hlost⟩ | hdoubled
  · exact Or.inl ⟨b, hheight, hlost.step hstart hstep fun _ _ hv hl ↦ hl.step hv⟩
  · exact Or.inr (hdoubled.step hstart hstep fun _ _ hv hd ↦ hd.step hv)

theorem Broken.not_noGap (h : Broken rt startHeight st) (hdrained : st.phase = .live []) :
    ¬ NoGap rt startHeight st := by
  intro hgap
  rcases h with ⟨b, hheight, log, hlog, hlost⟩ | ⟨log, hlog, hclosed | ⟨-, hdouble⟩⟩
  · obtain ⟨c, hc, hkey, -⟩ := hlost.recorded.logged b (List.mem_append_right _ hlost.announced)
    have hmem := hgap.delivered [] hdrained b hlost.announced
      ⟨log, hlog, List.mem_map.2 ⟨c, hc, hkey⟩⟩ hheight
    refine hlost.missing ?_
    show b.canon ∈ (st.sent ++ st.phase.buffer).map Block.canon
    rw [hdrained]
    exact hmem
  · exact nomatch hdrained.symm.trans hclosed
  · refine hdouble ?_
    show ((st.sent ++ st.phase.waiting (wanted startHeight)).map Block.canon).Nodup
    rw [hdrained, CatchUp.Phase.waiting, List.filter_nil, List.append_nil]
    exact hgap.once

/-- **The stream has no gap in every run in which blocks are notified on the right side of the
subscription**, and the first notification on the wrong side leaves a gap or a repeated block in
every later state in which the client has been sent all that was in its channel. -/
theorem noGap_of_run (rt : Runtime) (startHeight : Int64) (hstart : 0 < startHeight) :
    (∀ st, Reachable (Start rt) (SeamlessStep rt startHeight) st → NoGap rt startHeight st) ∧
      ∀ st l st' st'', Reachable (Start rt) (SeamlessStep rt startHeight) st →
        Step rt startHeight l st st' → Roomy l st → ¬ Seamless startHeight l st →
        Reachable (· = st') (fun s t ↦ ∃ l, Step rt startHeight l s t) st'' →
        st''.phase = .live [] → ¬ NoGap rt startHeight st'' := by
  refine ⟨fun st h ↦ (sound_of_reachable hstart h).noGap, ?_⟩
  intro st l st' st'' hreach hstep hroomy hnot hlater hdrained
  have hbroken := (sound_of_reachable hstart hreach).broken hstep hroomy hnot
  refine Broken.not_noGap ?_ hdrained
  refine hlater.invariant (fun s hs ↦ hs ▸ hbroken) fun s t _ hs hst ↦ ?_
  obtain ⟨l', hst⟩ := hst
  exact hs.step hstart hst

/-! ### A block on either side of the subscription -/

/-- A child of the genesis block. -/
def sampleChild : Block := sampleBlock Sample.genesis.hash []

/-- The chain of the genesis block and its child. -/
@[irreducible] def sampleNext : Blockchain := Sample.chain.storeTip Sample.runtime sampleChild

theorem blocks_sampleNext :
    sampleNext.blocks Sample.runtime = .ok [sampleChild, Sample.genesis] := by
  rw [sampleNext]
  exact Sample.blocks_chain_storeTip (by decide) (by decide) (by decide) rfl

theorem onTop_sampleChild : OnTop Sample.runtime Sample.chain sampleChild sampleNext := by
  refine ⟨Or.inl ⟨[], ?_⟩, _, Sample.blocks_chain, blocks_sampleNext⟩
  rw [sampleNext]
  exact addBlock_sampleChild

/-- The chain of the genesis block was scanned from height one on, so nothing was sent. -/
def sampleState (bc : Blockchain) (pending notified : List Block) (phase : Phase) : State :=
  ⟨bc, pending, notified, phase, [Sample.genesis], []⟩

/-- The child was added and notified after the subscription. -/
def sampleReceived : State := sampleState sampleNext [] [sampleChild] (.live [sampleChild])

/-- The child was added and notified before the subscription. -/
def sampleMissed : State := sampleState sampleNext [] [sampleChild] (.live [])

theorem historical_sampleChain : historical 1 [Sample.genesis] = [] := by
  decide

theorem canon_sampleChild_ne : sampleChild.canon ∉ [Sample.genesis].map Block.canon := by
  decide +kernel

theorem step_scan_sample :
    Step Sample.runtime 1 .scan (State.init Sample.chain)
      (sampleState Sample.chain [] [] (.sending [])) := by
  have h : Step Sample.runtime 1 .scan (State.init Sample.chain)
      (sampleState Sample.chain [] [] (.sending (historical 1 [Sample.genesis]).reverse)) :=
    .scan (by decide) rfl Sample.blocks_chain
  rwa [historical_sampleChain] at h

theorem step_add_sample (phase : Phase) :
    Step Sample.runtime 1 (.append sampleChild) (sampleState Sample.chain [] [] phase)
      (sampleState sampleNext [sampleChild] [] phase) :=
  .add onTop_sampleChild

theorem step_notify_sample (phase : Phase) :
    Step Sample.runtime 1 (.announce sampleChild) (sampleState sampleNext [sampleChild] [] phase)
      (sampleState sampleNext [] [sampleChild] (notifyBlock sampleChild phase)) :=
  @Step.notify Sample.runtime 1 (sampleState sampleNext [sampleChild] [] phase) sampleChild [] []
    rfl

theorem step_subscribe_sample (bc : Blockchain) (pending notified : List Block) :
    Step Sample.runtime 1 .subscribe (sampleState bc pending notified (.sending []))
      (sampleState bc pending notified (.live [])) :=
  .subscribeBlocks rfl

theorem start_sample : Start Sample.runtime (State.init Sample.chain) :=
  ⟨Sample.chain, _, Sample.blocks_chain, rfl⟩

theorem reachable_sampleScanned :
    Reachable (Start Sample.runtime) (SeamlessStep Sample.runtime 1)
      (sampleState Sample.chain [] [] (.sending [])) :=
  .next (.start start_sample) ⟨_, step_scan_sample, trivial, trivial⟩

theorem reachable_sampleReceived :
    Reachable (Start Sample.runtime) (SeamlessStep Sample.runtime 1) sampleReceived := by
  have hsubscribed := reachable_sampleScanned.next
    ⟨_, step_subscribe_sample Sample.chain [] [], trivial, trivial⟩
  have hadded := hsubscribed.next ⟨_, step_add_sample (.live []), trivial, trivial⟩
  refine hadded.next ⟨_, step_notify_sample (.live []), ?_, fun _ ↦ ⟨?_, ?_⟩⟩
  · intro ch hch
    obtain rfl := CatchUp.Phase.live.inj hch
    decide
  · intro rest hrest
    cases hrest
  · exact fun _ _ ↦ canon_sampleChild_ne

/-- The run in which the block is missed, up to its notification. -/
theorem reachable_sampleAdded :
    Reachable (Start Sample.runtime) (SeamlessStep Sample.runtime 1)
      (sampleState sampleNext [sampleChild] [] (.sending [])) :=
  reachable_sampleScanned.next ⟨_, step_add_sample (.sending []), trivial, trivial⟩

/-- A block that comes after the subscription waits in the channel, and one that comes between the
scan and the subscription is missed. -/
theorem noGap_of_run_sample :
    NoGap Sample.runtime 1 sampleReceived ∧ ¬ NoGap Sample.runtime 1 sampleMissed := by
  obtain ⟨hrun, hbroken⟩ := noGap_of_run Sample.runtime 1 (by decide)
  refine ⟨hrun _ reachable_sampleReceived, ?_⟩
  refine hbroken _ _ _ _ reachable_sampleAdded (step_notify_sample _) (fun ch hch ↦ ?_)
    (fun hseamless ↦ ?_) (.next (.start rfl) ⟨_, step_subscribe_sample _ _ _⟩) rfl
  · cases hch
  · exact canon_sampleChild_ne ((hseamless (by decide)).1 [] rfl)

/-- **The stream skips a block**: it was added and notified after the chain was scanned and before
the subscription, and the client is never sent it. -/
theorem streamNewBlocks_skips_block :
    ¬ ∀ (rt : Runtime) (startHeight : Int64), 0 < startHeight →
      ∀ st, Reachable (Start rt) (RoomyStep rt startHeight) st → NoGap rt startHeight st := by
  intro hclaim
  have hadded : Reachable (Start Sample.runtime) (RoomyStep Sample.runtime 1)
      (sampleState sampleNext [sampleChild] [] (.sending [])) :=
    reachable_sampleAdded.mono fun s t h ↦ h.imp fun l hl ↦ ⟨hl.1, hl.2.1⟩
  have hnotified := hadded.next ⟨_, step_notify_sample _, fun ch hch ↦ nomatch hch⟩
  have hmissed : Reachable (Start Sample.runtime) (RoomyStep Sample.runtime 1) sampleMissed :=
    hnotified.next ⟨_, step_subscribe_sample _ _ _, trivial⟩
  have honChain : OnChain Sample.runtime sampleNext sampleChild :=
    ⟨_, blocks_sampleNext, List.mem_cons_self⟩
  have hmem := (hclaim _ 1 (by decide) _ hmissed).delivered [] rfl sampleChild
    List.mem_cons_self honChain (by decide)
  exact absurd hmem List.not_mem_nil

end GoBlockchain.Stream
