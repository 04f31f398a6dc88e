import GoBlockchain.Indexer.Statistics
import GoBlockchain.Lib.Resume
import GoBlockchain.Network.Proto
import GoBlockchain.Network.Stream

/-!
# From the chain to the index

The indexer calls `StreamNewBlocks` from height one on, converts every event back to a block and
gives it to `ProcessBlock`; when the stream breaks it calls again. In the meantime blocks are added
to the chain, notified or not in time, and events are lost. A stream by itself can skip a block and
send one twice, and the indexer adds up everything it is given.

The entries of escrows come out right nevertheless: once the indexer has received the blocks that
were scanned for the current call, they are as if it had been given the blocks of this call and
nothing before (`index_of_run`). Nothing is assumed of the earlier calls, of the order in which
blocks were notified, or of the room in the channel.
-/

namespace GoBlockchain.Pipeline

open Blockchain GoBlockchain.Stream Indexer IndexStore Transition

/-- The chain and the current call of `StreamNewBlocks`, and the indexer at its end. -/
structure State where
  stream : Stream.State
  /-- How many events of the current call were received. -/
  received : ℕ
  store : IndexStore

/-- What the indexer does with the block of an event. -/
def onEvent (order : MapOrder (Bytes × IndexedEscrow)) (store : IndexStore) (b : Block) :
    IndexStore :=
  match protoBlockToCore (coreBlockToProto b) with
  | .error _ => store
  | .ok coreBlock => processBlock order store coreBlock

/-- The height the indexer asks for. -/
def startHeight : Int64 := 1

/-- The steps of the chain, the stream and the indexer, in any order. -/
inductive Step (rt : Runtime) : State → State → Prop
  | node {p : State} {l : Stream.Label} {st : Stream.State} :
      Stream.Step rt startHeight l p.stream st → Step rt p { p with stream := st }
  | event {p : State} {b : Block} (order : MapOrder (Bytes × IndexedEscrow)) :
      p.stream.sent[p.received]? = some b →
      Step rt p { p with received := p.received + 1, store := onEvent order p.store b }
  /-- The stream is disconnected, and `StreamNewBlocks` is called again. -/
  | reconnect {p : State} :
      Step rt p ⟨{ p.stream with phase := .idle, scanned := [], sent := [] }, 0, p.store⟩

/-- A chain that can be walked to the end, before the first call, and a new index. -/
def Start (rt : Runtime) (p : State) : Prop :=
  Stream.Start rt p.stream ∧ p.received = 0 ∧ p.store = newIndexStore

variable {rt : Runtime} {p p' : State}

/-- The blocks the indexer has received in the current call, as they are converted. -/
def State.current (p : State) : List Block :=
  (p.stream.sent.take p.received).map Block.narrowed

theorem onEvent_eq (order : MapOrder (Bytes × IndexedEscrow)) (store : IndexStore) (b : Block) :
    onEvent order store b = processBlock order store b.narrowed := by
  rw [onEvent, protoBlockToCore_coreBlockToProto]

/-- What a block does to an entry does not depend on the form of the IDs. -/
theorem blockOps_narrowed_of_canon {b c : Block} (h : c.canon = b.canon) (k : Bytes) :
    blockOps k c.narrowed = blockOps k b.narrowed := by
  have hcanon : ∀ d : Block, blockOps k d.narrowed = blockOps k d.canon.narrowed := by
    intro d
    have htxs : d.narrowed.transactions.flatMap (txOps d.narrowed.height) =
        d.canon.narrowed.transactions.flatMap (txOps d.canon.narrowed.height) := by
      show (d.transactions.map Transaction.narrowed).flatMap _ =
        ((d.transactions.map Transaction.canon).map Transaction.narrowed).flatMap _
      rw [List.flatMap_map, List.flatMap_map, List.flatMap_map]
      congr 1
      funext tx
      show txOps _ tx.narrowed = txOps _ tx.canon.narrowed
      have hid : tx.canon.narrowed.idBytes = tx.narrowed.idBytes := tx.canon_idBytes
      rw [txOps, txOps, hid]
      rfl
    rw [blockOps, blockOps, htxs]
    rfl
  rw [hcanon c, hcanon b, h]

/-! ### Runs -/

/-- What holds along every run: the library's invariant, and the store is what was fed. -/
def Inv (rt : Runtime) (p : State) : Prop :=
  ∃ log earlier fed, p.stream.bc.blocks rt = .ok log ∧
    Resume.Inv Block.canon (wanted startHeight) ⟨p.stream.view log, p.received, earlier⟩ ∧
    p.store = feed newIndexStore fed ∧
    fed.map Prod.snd = earlier.map Block.narrowed ++ p.current

theorem Start.inv (h : Start rt p) : Inv rt p := by
  obtain ⟨⟨bc, bs, hbs, hstream⟩, hreceived, hstore⟩ := h
  refine ⟨bs, [], [], ?_, ?_, hstore, ?_⟩
  · rw [hstream]
    exact hbs
  · rw [hstream, hreceived]
    exact Resume.inv_start (nodup_canon_of_blocks hbs)
  · rw [State.current, hreceived]
    rfl

theorem Step.inv (hstep : Step rt p p') (h : Inv rt p) : Inv rt p' := by
  obtain ⟨log, earlier, fed, hlog, hinv, hstore, hfed⟩ := h
  cases hstep with
  | node hnode =>
    obtain ⟨log', hlog', hcall⟩ := hnode.simulates (by decide) hlog
    refine ⟨log', earlier, fed, hlog', hinv.call hcall, hstore, hfed.trans ?_⟩
    rw [State.current, State.current]
    exact congrArg (fun bs ↦ _ ++ bs.map Block.narrowed) (hinv.current_call hcall).symm
  | @event b order hb =>
    obtain ⟨hlt, hget⟩ := List.getElem?_eq_some_iff.1 hb
    refine ⟨log, earlier, fed ++ [(order, b.narrowed)], hlog, hinv.receive hlt, ?_, ?_⟩
    · rw [feed_append, ← hstore, onEvent_eq]
      rfl
    · rw [List.map_append, hfed, State.current, State.current, List.append_assoc,
        List.take_add_one, hb, List.map_append]
      rfl
  | reconnect =>
    refine ⟨log, earlier ++ p.stream.sent.take p.received, fed, hlog, hinv.redial, hstore, ?_⟩
    rw [hfed, List.map_append]
    exact (List.append_nil _).symm

theorem inv_of_reachable (h : Reachable (Start rt) (Step rt) p) : Inv rt p :=
  h.invariant (fun _ hstart ↦ hstart.inv) fun _ _ _ hinv hstep ↦ hstep.inv hinv

/-- **The index catches up.** Whatever was missed, repeated or lost in earlier calls: once the
blocks that were scanned for the current call were received, the entries of escrows, their number
and the latest height are those of an index that was given the blocks of this call and no others.
These are the blocks of the chain from height one on, as it was when it was scanned, and those that
were sent since. -/
theorem index_of_run (h : Reachable (Start rt) (Step rt) p) (hopen : p.stream.phase ≠ .idle)
    (hcaught : (historical startHeight p.stream.scanned).length ≤ p.received)
    {calls : List (MapOrder (Bytes × IndexedEscrow) × Block)}
    (hcalls : calls.map Prod.snd = p.current) :
    (∃ newer, p.stream.bc.blocks rt = .ok (newer ++ p.stream.scanned)) ∧
      (historical startHeight p.stream.scanned).reverse.map Block.narrowed <+: p.current ∧
      p.store.escrows = (feed newIndexStore calls).escrows ∧
      p.store.metrics.totalEscrowsCount =
        (feed newIndexStore calls).metrics.totalEscrowsCount ∧
      p.store.latestHeight = (feed newIndexStore calls).latestHeight := by
  obtain ⟨log, earlier, fed, hlog, hinv, hstore, hfed⟩ := inv_of_reachable h
  have hreceived : (Resume.State.history (wanted startHeight)
      ⟨p.stream.view log, p.received, earlier⟩).length ≤ p.received := by
    rw [Resume.State.history, List.length_reverse]
    exact hcaught
  obtain ⟨hhistory, hcopied⟩ := hinv.caught_up hopen hreceived
  have hcopies : ∀ b ∈ earlier, ∃ c ∈ p.stream.sent.take p.received, c.canon = b.canon := hcopied
  have hscanned : p.stream.scanned <:+ log := hinv.scanned hopen
  obtain ⟨newer, rfl⟩ := hscanned
  have hescrows : p.store.escrows = (feed newIndexStore calls).escrows := by
    refine Std.ExtTreeMap.ext_getElem? fun k ↦ ?_
    show p.store.lookup k = (feed newIndexStore calls).lookup k
    have hmap : ∀ bs : List Block, (bs.map Block.narrowed).flatMap (blockOps k) =
        bs.flatMap fun b ↦ blockOps k b.narrowed := fun bs ↦ List.flatMap_map ..
    rw [hstore, lookup_feed, lookup_feed, hfed, hcalls, State.current, ← List.map_append, hmap,
      hmap]
    exact Resume.foldl_flatMap_eq overwriting_act
      (fun b c hkey ↦ blockOps_narrowed_of_canon hkey k) hcopies _
  refine ⟨⟨newer, hlog⟩, hhistory.map Block.narrowed, hescrows, ?_, ?_⟩
  · have hexcess : ∀ calls, excess (feed newIndexStore calls) = 0 := fun calls ↦
      (metrics_feed newIndexStore).2.2.2.trans excess_newIndexStore
    rw [totalEscrowsCount_of_excess (hexcess calls),
      totalEscrowsCount_of_excess (hstore ▸ hexcess fed), hescrows]
  · rw [hstore, latestHeight_feed, latestHeight_feed, hfed, hcalls]
    rcases hcurrent : p.stream.sent.take p.received with _ | ⟨b, bs⟩
    · -- then nothing was received before either
      have hnil : earlier = [] := List.eq_nil_iff_forall_not_mem.2 fun b hb ↦ by
        obtain ⟨c, hc, -⟩ := hcopies b hb
        rw [hcurrent] at hc
        cases hc
      rw [hnil]
      rfl
    · rw [State.current, hcurrent, List.map_append, List.getLast?_append, List.map_cons,
        List.map_cons, List.getLast?_cons]
      rfl

/-- The stream that has missed the child of the genesis block, with nothing received. -/
def sampleBroken : State := ⟨sampleMissed, 0, newIndexStore⟩

theorem reachable_sampleBroken :
    Reachable (Start Sample.runtime) (Step Sample.runtime) sampleBroken := by
  have hstart : Start Sample.runtime ⟨State.init Sample.chain, 0, newIndexStore⟩ :=
    ⟨start_sample, rfl, rfl⟩
  have hscanned := Reachable.next (.start hstart) (Step.node step_scan_sample)
  have hadded := hscanned.next (.node (step_add_sample _))
  have hnotified := hadded.next (.node (step_notify_sample _))
  exact hnotified.next (.node (step_subscribe_sample _ _ _))

/-- The child is received in the second call. -/
def sampleCaughtUp : State :=
  ⟨⟨sampleNext, [], [sampleChild], .sending [], [sampleChild, Sample.genesis], [sampleChild]⟩, 1,
    onEvent (.listed _) newIndexStore sampleChild⟩

theorem reachable_sampleCaughtUp :
    Reachable (Start Sample.runtime) (Step Sample.runtime) sampleCaughtUp := by
  have hagain := reachable_sampleBroken.next .reconnect
  have hhistorical : (historical startHeight [sampleChild, Sample.genesis]).reverse =
      [sampleChild] := by
    decide
  have hscan : Stream.Step Sample.runtime startHeight .scan
      ⟨sampleNext, [], [sampleChild], .idle, [], []⟩
      ⟨sampleNext, [], [sampleChild],
        .sending (historical startHeight [sampleChild, Sample.genesis]).reverse,
        [sampleChild, Sample.genesis], []⟩ := .scan (by decide) rfl blocks_sampleNext
  rw [hhistorical] at hscan
  have hscanned := hagain.next (.node hscan)
  have hsent := hscanned.next (.node (.send rfl))
  exact hsent.next (.event (.listed _) rfl)

/-- The block that the first call has missed is in the index. -/
theorem index_of_run_sample :
    sampleBroken.store.latestHeight = 0 ∧ sampleCaughtUp.store.latestHeight =
      (feed newIndexStore [(.listed _, sampleChild.narrowed)]).latestHeight ∧
      sampleCaughtUp.store.escrows =
        (feed newIndexStore [(.listed _, sampleChild.narrowed)]).escrows := by
  have hopen : sampleCaughtUp.stream.phase ≠ .idle := fun heq ↦ by cases heq
  have hcaught : (historical startHeight sampleCaughtUp.stream.scanned).length ≤
      sampleCaughtUp.received := by
    decide
  have hcalls : [(MapOrder.listed (Bytes × IndexedEscrow), sampleChild.narrowed)].map Prod.snd =
    sampleCaughtUp.current := rfl
  obtain ⟨-, -, hescrows, -, hheight⟩ := index_of_run reachable_sampleCaughtUp hopen hcaught hcalls
  exact ⟨rfl, hheight, hescrows⟩

end GoBlockchain.Pipeline
