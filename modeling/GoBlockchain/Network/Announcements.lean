import GoBlockchain.Network.Download

/-!
# Announced blocks

Blocks are announced by `inv` messages and arrive in `block` messages. `handleInv` asks for the
first hash of the message and remembers the others in `blocksInTransit`, from which `handleBlock`
asks for one after each block it adds. When there is none left it rebuilds the index of unspent
outputs instead. Both handlers may meet any message in any state.

*No announcement is forgotten* (`remembered_of_run`) exactly when each `inv` lists again what is
still in transit, because `handleInv` overwrites the list, and the peers asked can be reached.

*The index follows the chain* (`chainstate_of_run`) as long as no message is handled to no effect
while the index is behind: after a block that was followed by a request, a message that neither adds
a block nor asks for anything leaves the index as it is.
-/

namespace GoBlockchain

namespace Server

open Blockchain Transition

variable {rt : Runtime} {w : Wire} {env : ConnEnv} {s s' : Server} {request : Bytes}

/-! ### What the two handlers do -/

/-- A handled `inv` message. -/
inductive HandledInv (w : Wire) (env : ConnEnv) (request : Bytes) (s : Server) : Server → Prop
  /-- Nothing is asked for. -/
  | idle : (∀ payload first rest, payloadOf w.gobInv request = .ok (some payload) →
      payload.items = first :: rest → payload.type ≠ ascii "block" ∧
        (payload.type = ascii "tx" → Hex.encode first ∈ s.mempool)) →
      HandledInv w env request s s
  /-- The first of the announced blocks is asked for. -/
  | block {addrFrom first : Bytes} {rest : List Bytes} :
      payloadOf w.gobInv request = .ok (some ⟨addrFrom, ascii "block", first :: rest⟩) →
      HandledInv w env request s
        ({ s with blocksInTransit := (first :: rest).filter fun b ↦ b ≠ first }.sendGetData w
          (env.dial 0 addrFrom) addrFrom "block" first)
  /-- A transaction is asked for. -/
  | tx {addrFrom first : Bytes} {rest : List Bytes} :
      payloadOf w.gobInv request = .ok (some ⟨addrFrom, ascii "tx", first :: rest⟩) →
      Hex.encode first ∉ s.mempool →
      HandledInv w env request s (s.sendGetData w (env.dial 0 addrFrom) addrFrom "tx" first)

theorem HandledInv.of_payload {payload : InvPayload}
    (hpayload : payloadOf w.gobInv request = .ok (some payload))
    (h : ∀ first rest, payload.items = first :: rest → payload.type ≠ ascii "block" ∧
      (payload.type = ascii "tx" → Hex.encode first ∈ s.mempool)) :
    HandledInv w env request s s := by
  refine .idle fun payload' first rest hsome ↦ ?_
  rw [hpayload] at hsome
  obtain rfl := Option.some.inj (Except.ok.inj hsome)
  exact h first rest

theorem handleInv_cases (h : s.handleInv w env request = .ok s') :
    HandledInv w env request s s' := by
  rw [handleInv] at h
  rcases hpayload : payloadOf w.gobInv request with e | _ | ⟨addrFrom, type, items⟩
  · simp [hpayload] at h
  · simp only [hpayload, Except.ok.injEq] at h
    subst h
    refine .idle fun payload first rest hsome ↦ ?_
    rw [hpayload] at hsome
    cases hsome
  · simp only [hpayload] at h
    rcases items with _ | ⟨first, rest⟩
    · simp only [Except.ok.injEq] at h
      subst h
      refine .of_payload hpayload fun first rest hitems ↦ ?_
      cases hitems
    · simp only at h
      split at h
      · next htype =>
        subst htype
        rw [← Except.ok.inj h]
        exact .block hpayload
      · next hblock =>
        split at h
        · next htx =>
          subst htx
          split at h
          · next hmem =>
            rw [← Except.ok.inj h]
            refine .of_payload hpayload fun first' rest' hitems ↦ ?_
            obtain ⟨rfl, -⟩ := List.cons.inj hitems
            exact ⟨hblock, fun _ ↦ hmem⟩
          · next hnot =>
            rw [← Except.ok.inj h]
            exact .tx hpayload hnot
        · next htx =>
          rw [← Except.ok.inj h]
          exact .of_payload hpayload fun _ _ _ ↦ ⟨hblock, fun heq ↦ absurd heq htx⟩

/-- The request carries a block. -/
def CarriesBlock (rt : Runtime) (w : Wire) (request addrFrom : Bytes) (b : Block) : Prop :=
  ∃ data, payloadOf w.gobBlock request = .ok (some ⟨addrFrom, data⟩) ∧
    deserializeBlock rt data = .ok b

/-- A handled `block` message. -/
inductive HandledBlock (rt : Runtime) (w : Wire) (env : ConnEnv) (request : Bytes) (s : Server) :
    Server → Prop
  /-- The message carries no block. -/
  | dropped : (∀ addrFrom b, ¬ CarriesBlock rt w request addrFrom b) →
      HandledBlock rt w env request s s
  /-- `AddBlock` returns an error. -/
  | refused {addrFrom : Bytes} {b : Block} {e : Err} {bc : Blockchain} :
      CarriesBlock rt w request addrFrom b →
      s.bc.addBlock rt env.authorizedKeys b = .ok (.error e, bc) →
      HandledBlock rt w env request s { s with bc := bc }
  /-- The block is added. -/
  | added {addrFrom : Bytes} {b : Block} {bc : Blockchain} {s' : Server} :
      CarriesBlock rt w request addrFrom b →
      s.bc.addBlock rt env.authorizedKeys b = .ok (.ok (), bc) →
      { s with bc := bc, mempool := evict s.mempool b.transactions }.nextInTransit rt w env
        addrFrom = .ok s' → HandledBlock rt w env request s s'

theorem handleBlock_cases (h : s.handleBlock rt w env request = .ok s') :
    HandledBlock rt w env request s s' := by
  rw [handleBlock] at h
  rcases hpayload : payloadOf w.gobBlock request with e | _ | ⟨addrFrom, data⟩
  · simp [hpayload] at h
  · simp only [hpayload, Except.ok.injEq] at h
    subst h
    refine .dropped ?_
    rintro addrFrom b ⟨data, hdata, -⟩
    rw [hpayload] at hdata
    cases hdata
  · simp only [hpayload] at h
    rcases hblock : deserializeBlock rt data with e | b
    · simp only [hblock, Except.ok.injEq] at h
      subst h
      refine .dropped ?_
      rintro addrFrom' b ⟨data', hdata, hb⟩
      rw [hpayload] at hdata
      obtain ⟨-, rfl⟩ := BlockPayload.mk.inj (Option.some.inj (Except.ok.inj hdata))
      rw [hblock] at hb
      cases hb
    · have hcarries : CarriesBlock rt w request addrFrom b := ⟨data, hpayload, hblock⟩
      simp only [hblock] at h
      rcases hadd : s.bc.addBlock rt env.authorizedKeys b with e | ⟨e | ⟨⟩, bc⟩
      · simp [hadd] at h
      · simp only [hadd, Except.ok.injEq] at h
        rw [← h]
        exact .refused hcarries hadd
      · simp only [hadd] at h
        exact .added hcarries hadd h

theorem CarriesBlock.handleBlock_eq {addrFrom : Bytes} {b : Block} {bc : Blockchain}
    (h : CarriesBlock rt w request addrFrom b)
    (hadd : s.bc.addBlock rt env.authorizedKeys b = .ok (.ok (), bc)) :
    s.handleBlock rt w env request =
      { s with bc := bc, mempool := evict s.mempool b.transactions }.nextInTransit rt w env
        addrFrom := by
  obtain ⟨data, hdata, hb⟩ := h
  simp only [handleBlock, hdata, hb, hadd]

theorem CarriesBlock.unique {addrFrom addrFrom' : Bytes} {b b' : Block}
    (h : CarriesBlock rt w request addrFrom b) (h' : CarriesBlock rt w request addrFrom' b') :
    addrFrom' = addrFrom ∧ b' = b := by
  obtain ⟨data, hdata, hb⟩ := h
  obtain ⟨data', hdata', hb'⟩ := h'
  rw [hdata] at hdata'
  obtain ⟨rfl, rfl⟩ := BlockPayload.mk.inj (Option.some.inj (Except.ok.inj hdata'))
  exact ⟨rfl, Except.ok.inj (hb'.symm.trans hb)⟩

theorem nextInTransit_of_cons {addrFrom first : Bytes} {rest : List Bytes}
    (htransit : s.blocksInTransit = first :: rest) :
    s.nextInTransit rt w env addrFrom =
      .ok ({ s with blocksInTransit := rest }.sendGetData w (env.dial 0 addrFrom) addrFrom "block"
        first) := by
  simp only [nextInTransit, htransit]

theorem nextInTransit_of_nil {addrFrom : Bytes} {r : Except Err Unit} {bc : Blockchain}
    (htransit : s.blocksInTransit = [])
    (hreindex : UTXOSet.reindex rt env.reindexOrder s.bc = .ok (r, bc)) :
    s.nextInTransit rt w env addrFrom = .ok { s with bc := bc } := by
  simp only [nextInTransit, htransit, hreindex]

/-- What is done after a block is added: a request, or `Reindex`. -/
theorem nextInTransit_eq_ok {addrFrom : Bytes} (h : s.nextInTransit rt w env addrFrom = .ok s') :
    (∃ first rest, s.blocksInTransit = first :: rest ∧
      s' = { s with blocksInTransit := rest }.sendGetData w (env.dial 0 addrFrom) addrFrom "block"
        first) ∨
    ∃ r bc, s.blocksInTransit = [] ∧
      UTXOSet.reindex rt env.reindexOrder s.bc = .ok (r, bc) ∧ s' = { s with bc := bc } := by
  rcases htransit : s.blocksInTransit with _ | ⟨first, rest⟩
  · rcases hreindex : UTXOSet.reindex rt env.reindexOrder s.bc with e | ⟨r, bc⟩
    · simp [nextInTransit, htransit, hreindex] at h
    · rw [nextInTransit_of_nil htransit hreindex] at h
      rw [← htransit]
      exact Or.inr ⟨r, bc, rfl, rfl, (Except.ok.inj h).symm⟩
  · rw [nextInTransit_of_cons htransit] at h
    exact Or.inl ⟨first, rest, rfl, (Except.ok.inj h).symm⟩

/-! ### Requests -/

@[simp] theorem sendGetData_blocksInTransit (dialed : Bool) (addr : Bytes) (kind : String)
    (id : Bytes) : (s.sendGetData w dialed addr kind id).blocksInTransit = s.blocksInTransit := by
  cases dialed <;> rfl

@[simp] theorem sendGetData_nodeAddress (dialed : Bool) (addr : Bytes) (kind : String)
    (id : Bytes) : (s.sendGetData w dialed addr kind id).nodeAddress = s.nodeAddress := by
  cases dialed <;> rfl

@[simp] theorem sendGetData_bc (dialed : Bool) (addr : Bytes) (kind : String) (id : Bytes) :
    (s.sendGetData w dialed addr kind id).bc = s.bc := by
  cases dialed <;> rfl

/-- The block was asked for, from whomever. -/
def Requested (w : Wire) (s : Server) (hash : Bytes) : Prop :=
  ∃ addr, (addr, getDataMessage w s.nodeAddress hash) ∈ s.sent

theorem getDataMessage_inj {addrFrom hash hash' : Bytes}
    (h : getDataMessage w addrFrom hash = getDataMessage w addrFrom hash') : hash = hash' := by
  have hdec := congrArg w.gobGetData.decode (List.append_cancel_left h)
  rw [w.gobGetData.decode_encode, w.gobGetData.decode_encode] at hdec
  exact (GetDataPayload.mk.inj (Option.some.inj hdec)).2.2

/-- A request adds one hash to those asked for, if the peer can be reached. -/
theorem requested_sendGetData {dialed : Bool} {addr id hash : Bytes} :
    Requested w (s.sendGetData w dialed addr "block" id) hash ↔
      Requested w s hash ∨ dialed = true ∧ hash = id := by
  cases dialed with
  | false => simp [Requested, sendGetData, sendData]
  | true =>
    have hsent : (s.sendGetData w true addr "block" id).sent =
        s.sent ++ [(addr, getDataMessage w s.nodeAddress id)] := rfl
    rw [Requested, hsent, sendGetData_nodeAddress]
    constructor
    · rintro ⟨addr', hmem⟩
      rcases List.mem_append.1 hmem with hmem | hmem
      · exact Or.inl ⟨addr', hmem⟩
      · exact Or.inr ⟨rfl, getDataMessage_inj (Prod.mk.inj (List.mem_singleton.1 hmem)).2⟩
    · rintro (⟨addr', hmem⟩ | ⟨-, rfl⟩)
      · exact ⟨addr', List.mem_append_left _ hmem⟩
      · exact ⟨addr, List.mem_append_right _ (List.mem_singleton_self _)⟩

/-! ### Announcements are remembered -/

/-- A message about blocks: an announcement, or a block `AddBlock` accepts. -/
inductive Delivery
  | inv (env : ConnEnv) (addrFrom : Bytes) (items : List Bytes)
  | block (env : ConnEnv) (addrFrom : Bytes) (b : Block)

/-- The hashes a message announces. -/
def Delivery.announced : Delivery → List Bytes
  | .inv _ _ items => items
  | .block _ _ _ => []

/-- The message was handled. -/
def Delivery.Handled (rt : Runtime) (w : Wire) (s s' : Server) : Delivery → Prop
  | .inv env addrFrom items => ∃ request,
      payloadOf w.gobInv request = .ok (some ⟨addrFrom, ascii "block", items⟩) ∧
        s.handleInv w env request = .ok s'
  | .block env addrFrom b => ∃ request bc, CarriesBlock rt w request addrFrom b ∧
      s.bc.addBlock rt env.authorizedKeys b = .ok (.ok (), bc) ∧
        s.handleBlock rt w env request = .ok s'

/-- A server together with the hashes announced to it so far. -/
structure Tracker where
  server : Server
  announced : List Bytes

/-- One message is handled. -/
def Tracker.Step (rt : Runtime) (w : Wire) (d : Delivery) (t t' : Tracker) : Prop :=
  d.Handled rt w t.server t'.server ∧ t'.announced = t.announced ++ d.announced

/-- Every announced hash was asked for or is in transit. -/
def Tracker.Remembered (w : Wire) (t : Tracker) : Prop :=
  ∀ hash ∈ t.announced, Requested w t.server hash ∨ hash ∈ t.server.blocksInTransit

/-- A message that forgets nothing: an `inv` from a peer that can be reached, which lists again what
is in transit and was not asked for; and a block from a peer that can be reached, if something is in
transit. What was asked for before need not be asked for again. -/
def Delivery.Keeps (w : Wire) (t : Tracker) : Delivery → Prop
  | .inv _ _ [] => True
  | .inv env addrFrom (first :: rest) =>
    (env.dial 0 addrFrom = true ∨ Requested w t.server first) ∧
      ∀ hash ∈ t.announced, hash ∈ t.server.blocksInTransit →
        hash ∈ first :: rest ∨ Requested w t.server hash
  | .block env addrFrom _ =>
    env.dial 0 addrFrom = true ∨ ∀ hash rest, t.server.blocksInTransit = hash :: rest →
      hash ∈ t.announced → hash ∈ rest ∨ Requested w t.server hash

/-- What an `inv` of blocks leaves of the announcements. -/
theorem Delivery.Handled.inv {addrFrom : Bytes} {items : List Bytes}
    (h : (Delivery.inv env addrFrom items).Handled rt w s s') :
    (items = [] ∧ s' = s) ∨ ∃ first rest, items = first :: rest ∧
      (∀ hash, hash ∈ s'.blocksInTransit ↔ hash ∈ items ∧ hash ≠ first) ∧
      ∀ hash, Requested w s' hash ↔
        Requested w s hash ∨ env.dial 0 addrFrom = true ∧ hash = first := by
  obtain ⟨request, hpayload, hhandle⟩ := h
  simp only [handleInv, hpayload] at hhandle
  rcases items with _ | ⟨first, rest⟩
  · exact Or.inl ⟨rfl, (Except.ok.inj hhandle).symm⟩
  · simp only [if_true] at hhandle
    rw [← Except.ok.inj hhandle]
    refine Or.inr ⟨first, rest, rfl, fun hash ↦ ?_, fun hash ↦ ?_⟩
    · rw [sendGetData_blocksInTransit, List.mem_filter, decide_eq_true_eq]
    · rw [requested_sendGetData]
      rfl

/-- What an accepted block leaves of the announcements. -/
theorem Delivery.Handled.block {addrFrom : Bytes} {b : Block}
    (h : (Delivery.block env addrFrom b).Handled rt w s s') :
    (s.blocksInTransit = [] ∧ s'.blocksInTransit = [] ∧ ∀ hash, Requested w s' hash ↔
      Requested w s hash) ∨
    ∃ first rest, s.blocksInTransit = first :: rest ∧ s'.blocksInTransit = rest ∧
      ∀ hash, Requested w s' hash ↔
        Requested w s hash ∨ env.dial 0 addrFrom = true ∧ hash = first := by
  obtain ⟨request, bc, hcarries, hadd, hhandle⟩ := h
  rw [hcarries.handleBlock_eq hadd] at hhandle
  rcases nextInTransit_eq_ok hhandle with ⟨first, rest, htransit, rfl⟩ | ⟨r, bc', hnil, -, rfl⟩
  · refine Or.inr ⟨first, rest, htransit, by simp, fun hash ↦ ?_⟩
    rw [requested_sendGetData]
    rfl
  · exact Or.inl ⟨hnil, hnil, fun hash ↦ Iff.rfl⟩

theorem Tracker.Remembered.inv_iff {t : Tracker} (ht : t.Remembered w) {addrFrom : Bytes}
    {items : List Bytes} (h : (Delivery.inv env addrFrom items).Handled rt w t.server s') :
    Tracker.Remembered w ⟨s', t.announced ++ items⟩ ↔
      (Delivery.inv env addrFrom items).Keeps w t := by
  rcases h.inv with ⟨rfl, rfl⟩ | ⟨first, rest, rfl, htransit, hreq⟩
  · refine iff_of_true (fun hash hmem ↦ ht hash ?_) trivial
    simpa using hmem
  · simp only [Tracker.Remembered, hreq, htransit]
    constructor
    · intro hall
      refine ⟨?_, fun hash hann _ ↦ ?_⟩
      · rcases hall first (List.mem_append_right _ List.mem_cons_self) with (hold | hnew) | hlisted
        · exact Or.inr hold
        · exact Or.inl hnew.1
        · exact absurd rfl hlisted.2
      · rcases hall hash (List.mem_append_left _ hann) with (hold | ⟨-, rfl⟩) | hlisted
        · exact Or.inr hold
        · exact Or.inl List.mem_cons_self
        · exact Or.inl hlisted.1
    · intro ⟨hfirst, hagain⟩ hash hmem
      have hlisted : hash ∈ first :: rest ∨ Requested w t.server hash := by
        rcases List.mem_append.1 hmem with hann | hitem
        · exact (ht hash hann).elim Or.inr (hagain hash hann)
        · exact Or.inl hitem
      rcases hlisted with hitem | hold
      · rcases eq_or_ne hash first with rfl | hne
        · exact Or.inl (hfirst.symm.imp_right fun hdial ↦ ⟨hdial, rfl⟩)
        · exact Or.inr ⟨hitem, hne⟩
      · exact Or.inl (Or.inl hold)

theorem Tracker.Remembered.block_iff {t : Tracker} (ht : t.Remembered w) {addrFrom : Bytes}
    {b : Block} (h : (Delivery.block env addrFrom b).Handled rt w t.server s') :
    Tracker.Remembered w ⟨s', t.announced⟩ ↔ (Delivery.block env addrFrom b).Keeps w t := by
  simp only [Tracker.Remembered, Delivery.Keeps]
  rcases h.block with ⟨hnil, hnil', hreq⟩ | ⟨first, rest, htransit, htransit', hreq⟩
  · refine iff_of_true (fun hash hmem ↦ ?_) (Or.inr fun hash rest hcons ↦ ?_)
    · rw [hreq, hnil', ← hnil]
      exact ht hash hmem
    · rw [hnil] at hcons
      cases hcons
  · simp only [hreq, htransit', htransit]
    constructor
    · intro hall
      rcases hdial : env.dial 0 addrFrom with _ | _
      · refine Or.inr fun hash rest' hcons hann ↦ ?_
        obtain ⟨rfl, rfl⟩ := List.cons.inj hcons
        rcases hall first hann with (hold | hnew) | hrest
        · exact Or.inr hold
        · rw [hdial] at hnew
          cases hnew.1
        · exact Or.inl hrest
      · exact Or.inl rfl
    · intro hkeeps hash hann
      have hold := ht hash hann
      rw [htransit, List.mem_cons] at hold
      rcases hold with hold | rfl | hrest
      · exact Or.inl (Or.inl hold)
      · rcases hkeeps with hdial | hkeeps
        · exact Or.inl (Or.inr ⟨hdial, rfl⟩)
        · exact (hkeeps hash rest rfl hann).elim Or.inr fun hold ↦ Or.inl (Or.inl hold)
      · exact Or.inr hrest

/-- **What one message does to the announcements remembered.** -/
theorem Tracker.Step.remembered_iff {d : Delivery} {t t' : Tracker} (h : t.Step rt w d t')
    (ht : t.Remembered w) : t'.Remembered w ↔ d.Keeps w t := by
  obtain ⟨s', announced'⟩ := t'
  obtain ⟨hhandled, rfl⟩ := h
  cases d with
  | inv env addrFrom items => exact ht.inv_iff hhandled
  | block env addrFrom b =>
    show Tracker.Remembered w ⟨s', t.announced ++ []⟩ ↔ _
    rw [List.append_nil]
    exact ht.block_iff hhandled

/-- A server before any announcement. -/
def Tracker.Starts (t : Tracker) : Prop :=
  t.announced = []

/-- One message is handled that forgets nothing. -/
def Tracker.KeepingStep (rt : Runtime) (w : Wire) (t t' : Tracker) : Prop :=
  ∃ d, t.Step rt w d t' ∧ d.Keeps w t

/-- **When announcements are remembered**: in every run of messages that forget nothing; and where
all are remembered, a message that is handled leaves all remembered only if it is one. -/
theorem remembered_of_run (rt : Runtime) (w : Wire) :
    (∀ t, Reachable Tracker.Starts (Tracker.KeepingStep rt w) t → t.Remembered w) ∧
    ∀ (d : Delivery) (t t' : Tracker), t.Remembered w → t.Step rt w d t' →
      (t'.Remembered w ↔ d.Keeps w t) := by
  refine ⟨fun t h ↦ ?_, fun d t t' ht hstep ↦ hstep.remembered_iff ht⟩
  refine Reachable.invariant (P := fun t ↦ t.Remembered w) ?_ ?_ h
  · intro t hstart hash hmem
    rw [hstart] at hmem
    cases hmem
  · rintro t t' - ht ⟨d, hstep, hkeeps⟩
    exact (hstep.remembered_iff ht).2 hkeeps

/-- The tracker after an `inv` of blocks. -/
def Tracker.hear (w : Wire) (env : ConnEnv) (addrFrom first : Bytes) (rest : List Bytes)
    (t : Tracker) : Tracker :=
  ⟨{ t.server with blocksInTransit := (first :: rest).filter fun b ↦ b ≠ first }.sendGetData w
    (env.dial 0 addrFrom) addrFrom "block" first, t.announced ++ first :: rest⟩

theorem Tracker.step_hear {addrFrom first : Bytes} {rest : List Bytes} {t : Tracker} :
    t.Step rt w (.inv env addrFrom (first :: rest)) (t.hear w env addrFrom first rest) := by
  have hpayload : payloadOf w.gobInv (invMessage w addrFrom (first :: rest)) =
      .ok (some ⟨addrFrom, ascii "block", first :: rest⟩) := payloadOf_message ..
  refine ⟨⟨_, hpayload, ?_⟩, rfl⟩
  simp only [handleInv, hpayload, if_true]
  rfl

end Server

namespace Sample

open Server

/-- A server that was not told of any block. -/
def tracker : Tracker := ⟨server, []⟩

/-- The server after a peer announced two blocks. -/
def heard : Tracker := tracker.hear wire connEnv (ascii "8001") [1] [[2]]

theorem not_requested_heard : ¬ Requested wire heard.server [2] := by
  show ¬ Requested wire (sendGetData wire true (ascii "8001") "block" [1] _) [2]
  rw [requested_sendGetData]
  rintro (⟨addr, hmem⟩ | hnew)
  · cases hmem
  · exact absurd hnew.2 (by decide)

end Sample

namespace Server

open Blockchain Transition

theorem remembered_of_run_heard :
    Sample.heard.Remembered Sample.wire ∧
    ∀ t', Sample.heard.Step Sample.runtime Sample.wire
      (.inv Sample.connEnv (ascii "8001") [[3], [2]]) t' →
        t'.Remembered Sample.wire := by
  obtain ⟨hrun, hiff⟩ := remembered_of_run Sample.runtime Sample.wire
  have hheard : Sample.heard.Remembered Sample.wire := by
    refine hrun _ (.next (.start (s := Sample.tracker) rfl) ⟨_, Tracker.step_hear, Or.inl rfl, ?_⟩)
    intro hash hmem
    cases hmem
  refine ⟨hheard, fun t' hstep ↦ (hiff _ _ _ hheard hstep).2 ⟨Or.inl rfl, ?_⟩⟩
  intro hash _ hmem
  obtain rfl : hash = [2] := List.mem_singleton.1 hmem
  exact Or.inl (by decide)

/-- A second announcement makes the server forget what the first one listed. -/
theorem handleInv_forgets_announced :
    ¬ ∀ (rt : Runtime) (w : Wire) (t : Tracker),
      Reachable Tracker.Starts (fun t t' ↦ ∃ d, t.Step rt w d t') t → t.Remembered w := by
  intro hclaim
  have hheard := hclaim Sample.runtime Sample.wire
    (Sample.heard.hear _ Sample.connEnv (ascii "8001") [3] [])
    (.next (.next (.start (s := Sample.tracker) rfl) ⟨_, Tracker.step_hear⟩)
      ⟨_, Tracker.step_hear⟩)
  rcases hheard [2] (by decide) with hrequested | htransit
  · rcases requested_sendGetData.1 hrequested with hold | hnew
    · exact Sample.not_requested_heard hold
    · exact absurd hnew.2 (by decide)
  · exact absurd htransit (by decide)

/-! ### The index follows the chain -/

variable {rt : Runtime} {w : Wire} {s s' : Server}

/-- A request for one of the two handlers, with what the surroundings supply to it. -/
inductive Message
  | inv (env : ConnEnv) (request : Bytes)
  | block (env : ConnEnv) (request : Bytes)

/-- The message was handled. -/
def Message.Handled (rt : Runtime) (w : Wire) (s s' : Server) : Message → Prop
  | .inv env request => s.handleInv w env request = .ok s'
  | .block env request => s.handleBlock rt w env request = .ok s'

/-- A block whose transactions can be indexed and which does not link to the key of the tip. -/
def Indexable (b : Block) : Prop :=
  b.prevBlockHash ≠ DB.tipKey ∧ ∀ tx ∈ b.transactions, DB.Storable tx.idBytes

instance (b : Block) : Decidable (Indexable b) :=
  inferInstanceAs (Decidable (_ ∧ _))

/-- The message comes from a peer that can be reached, and if it brings a block that is stored, then
an indexable one. -/
def Message.Usable (rt : Runtime) (w : Wire) (s : Server) : Message → Prop
  | .inv env request => ∀ payload, payloadOf w.gobInv request = .ok (some payload) →
      env.dial 0 payload.addrFrom = true
  | .block env request => ∀ addrFrom b, CarriesBlock rt w request addrFrom b →
      env.dial 0 addrFrom = true ∧ (s.bc.db.blocks[b.hash]? = none →
        Admissible rt env.authorizedKeys b → Indexable b)

/-- The message is not in vain: it announces blocks, or a transaction that is not in the mempool, or
it brings a block that is known or admissible. -/
def Message.Effective (rt : Runtime) (w : Wire) (s : Server) : Message → Prop
  | .inv _ request => ∃ payload first rest, payloadOf w.gobInv request = .ok (some payload) ∧
      payload.items = first :: rest ∧ (payload.type = ascii "block" ∨
        payload.type = ascii "tx" ∧ Hex.encode first ∉ s.mempool)
  | .block env request => ∃ addrFrom b, CarriesBlock rt w request addrFrom b ∧
      (s.bc.db.blocks[b.hash]? ≠ none ∨ Admissible rt env.authorizedKeys b)

/-- The store is well formed and every block in it can be indexed. -/
def Ready (rt : Runtime) (bc : Blockchain) : Prop :=
  WellFormed rt bc ∧ AllStored rt (fun _ ↦ Indexable) bc.db

theorem indexable_canon {b : Block} (h : Indexable b) : Indexable b.canon := by
  rw [Block.canon_eq_self fun tx htx ↦ (h.2 tx htx).1]
  exact h

theorem ready_of_added {bc bc' : Blockchain} {authorizedKeys : List Bytes} {b : Block}
    {r : Except Err Unit} (hready : Ready rt bc) (h : Added rt authorizedKeys bc b r bc')
    (hb : bc.db.blocks[b.hash]? = none → Admissible rt authorizedKeys b → Indexable b) :
    Ready rt bc' :=
  ⟨h.wellFormed hready.1,
    h.allStored hready.1 (fun hfree hadm ↦ indexable_canon (hb hfree hadm)) hready.2⟩

theorem ready_of_indexStep {bc bc' : Blockchain} (hready : Ready rt bc) (h : IndexStep bc bc') :
    Ready rt bc' := by
  refine ⟨h.wellFormed hready.1, ?_⟩
  obtain ⟨index, rfl⟩ := h
  exact hready.2

/-- `Reindex` on such a store leaves the index that `FindUTXO` finds. -/
theorem holdsFindUTXO_of_reindex {bc bc' : Blockchain} {order : MapOrder (Bytes × TXOutputs)}
    {r : Except Err Unit} (hready : Ready rt bc)
    (h : UTXOSet.reindex rt order bc = .ok (r, bc')) : UTXOSet.HoldsFindUTXO rt bc' := by
  obtain ⟨bs, hbs⟩ : ∃ bs, bc.blocks rt = .ok bs := by
    rw [UTXOSet.reindex, DB.clearUTXOSet_eq] at h
    rcases hbs : bc.blocks rt with e | bs
    · have hfind : (⟨bc.tip, { bc.db with utxo := ∅ }⟩ : Blockchain).findUTXO rt = .error e := by
        have hblocks : (⟨bc.tip, { bc.db with utxo := ∅ }⟩ : Blockchain).blocks rt = .error e :=
          hbs
        rw [findUTXO, hblocks]
      simp [hfind] at h
    · exact ⟨bs, rfl⟩
  obtain ⟨r', bc'', hreindex, -, hholds⟩ := UTXOSet.exists_reindex hbs order
  obtain ⟨-, rfl⟩ := Prod.mk.inj (Except.ok.inj (h.symm.trans hreindex))
  refine hholds fun tx htx ↦ ?_
  obtain ⟨b, hb, htx⟩ := List.mem_flatMap.1 htx
  have hwalk := (blocks_eq_ok_iff_link hready.1 fun k c hc ↦ (hready.2 k c hc).1).1 hbs
  obtain ⟨k, k', -, hlink, -⟩ := hwalk.exists_next_of_mem b hb
  obtain ⟨c, hc, heq⟩ := Option.map_eq_some_iff.1 hlink
  obtain ⟨rfl, -⟩ := Prod.mk.inj heq
  exact (hready.2 k _ hc).2 tx htx

/-- `AddBlock` returns without an error exactly for known and for admissible blocks. -/
theorem exists_addBlock_ok_iff {bc : Blockchain} {authorizedKeys : List Bytes} {b : Block}
    (hwf : WellFormed rt bc) :
    (∃ bc', bc.addBlock rt authorizedKeys b = .ok (.ok (), bc')) ↔
      (bc.db.blocks[b.hash]? ≠ none ∨ Admissible rt authorizedKeys b) := by
  constructor
  · rintro ⟨bc', hadd⟩
    cases addBlock_cases hwf hadd with
    | known hknown => exact Or.inl hknown
    | side _ hcheck hstore _ _ => exact Or.inr ⟨hcheck, hstore⟩
    | tip _ hcheck hstore _ _ => exact Or.inr ⟨hcheck, hstore⟩
  · rintro (hknown | hadm)
    · obtain ⟨data, hdata⟩ := Option.ne_none_iff_exists'.1 hknown
      exact ⟨bc, by simp [addBlock, DB.getBlock, DB.get, hdata]⟩
    · exact exists_addBlock_of_admissible hwf hadm

theorem sent_sendGetData_ne (addr : Bytes) (kind : String) (id : Bytes) :
    (s.sendGetData w true addr kind id).sent ≠ s.sent := by
  show s.sent ++ [_] ≠ s.sent
  simp

/-- What `handleBlock` does after a block is added, from a peer that can be reached: a request is
sent, or the index is rebuilt. -/
theorem nextInTransit_cases {env : ConnEnv} {addrFrom : Bytes} (hready : Ready rt s.bc)
    (hdial : env.dial 0 addrFrom = true) (h : s.nextInTransit rt w env addrFrom = .ok s') :
    Ready rt s'.bc ∧ (s'.sent ≠ s.sent ∨ UTXOSet.HoldsFindUTXO rt s'.bc) := by
  rcases nextInTransit_eq_ok h with ⟨first, rest, -, rfl⟩ | ⟨r, bc, -, hreindex, rfl⟩
  · rw [sendGetData_bc, hdial]
    exact ⟨hready, Or.inl (sent_sendGetData_ne _ _ _)⟩
  · exact ⟨ready_of_indexStep hready (UTXOSet.indexStep_of_reindex hreindex),
      Or.inr (holdsFindUTXO_of_reindex hready hreindex)⟩

/-- A message in vain changes nothing but perhaps the mempool; one that is not is followed by a
request or leaves the index of the chain. -/
theorem Message.Handled.cases {m : Message} (hready : Ready rt s.bc) (hm : m.Usable rt w s)
    (h : m.Handled rt w s s') :
    Ready rt s'.bc ∧ ((¬ m.Effective rt w s ∧ s'.bc = s.bc ∧ s'.sent = s.sent) ∨
      (m.Effective rt w s ∧ (s'.sent ≠ s.sent ∨ UTXOSet.HoldsFindUTXO rt s'.bc))) := by
  cases m with
  | inv env request =>
    cases handleInv_cases h with
    | idle hidle =>
      refine ⟨hready, Or.inl ⟨?_, rfl, rfl⟩⟩
      rintro ⟨payload, first, rest, hpayload, hitems, hblock | ⟨htx, hnot⟩⟩
      · exact (hidle payload first rest hpayload hitems).1 hblock
      · exact hnot ((hidle payload first rest hpayload hitems).2 htx)
    | block hpayload =>
      rw [sendGetData_bc, hm _ hpayload]
      exact ⟨hready, Or.inr ⟨⟨_, _, _, hpayload, rfl, Or.inl rfl⟩,
        Or.inl (sent_sendGetData_ne _ _ _)⟩⟩
    | tx hpayload hnot =>
      rw [sendGetData_bc, hm _ hpayload]
      exact ⟨hready, Or.inr ⟨⟨_, _, _, hpayload, rfl, Or.inr ⟨rfl, hnot⟩⟩,
        Or.inl (sent_sendGetData_ne _ _ _)⟩⟩
  | block env request =>
    cases handleBlock_cases h with
    | dropped hdropped =>
      exact ⟨hready, Or.inl ⟨fun ⟨addrFrom, b, hb, _⟩ ↦ hdropped addrFrom b hb, rfl, rfl⟩⟩
    | @refused addrFrom b e bc hcarries hadd =>
      have hbc : bc = s.bc := by
        cases addBlock_cases hready.1 hadd with
        | refused _ => rfl
      refine ⟨hbc ▸ hready, Or.inl ⟨?_, hbc, rfl⟩⟩
      rintro ⟨addrFrom', b', hcarries', haccepted⟩
      obtain ⟨-, rfl⟩ := hcarries.unique hcarries'
      obtain ⟨bc', hok⟩ := (exists_addBlock_ok_iff hready.1).2 haccepted
      rw [hadd] at hok
      cases hok
    | added hcarries hadd hnext =>
      obtain ⟨hdial, hindexable⟩ := hm _ _ hcarries
      obtain ⟨hready', hcases⟩ := nextInTransit_cases
        (ready_of_added hready (addBlock_cases hready.1 hadd) hindexable) hdial hnext
      exact ⟨hready', Or.inr
        ⟨⟨_, _, hcarries, (exists_addBlock_ok_iff hready.1).1 ⟨_, hadd⟩⟩, hcases⟩⟩

/-- **What one message does to the index**: where no request is sent after it, the index is that of
the chain exactly when it was before or the message was not in vain. -/
theorem Message.Handled.follows_iff {m : Message} (hready : Ready rt s.bc)
    (hm : m.Usable rt w s) (h : m.Handled rt w s s') :
    (s'.sent = s.sent → UTXOSet.HoldsFindUTXO rt s'.bc) ↔
      (UTXOSet.HoldsFindUTXO rt s.bc ∨ m.Effective rt w s) := by
  obtain ⟨-, ⟨hvain, hbc, hsent⟩ | ⟨heffective, hcases⟩⟩ := h.cases hready hm
  · rw [hbc, imp_iff_right hsent, or_iff_left hvain]
  · refine iff_of_true (fun hsent ↦ ?_) (Or.inr heffective)
    exact hcases.resolve_left fun hne ↦ hne hsent

/-- The server starts with the index of its chain. -/
def StartsIndexed (rt : Runtime) (s : Server) : Prop :=
  Ready rt s.bc ∧ UTXOSet.HoldsFindUTXO rt s.bc

/-- A usable message that is not in vain while the index is behind. -/
def Message.Timely (rt : Runtime) (w : Wire) (s : Server) (m : Message) : Prop :=
  m.Usable rt w s ∧ (UTXOSet.HoldsFindUTXO rt s.bc ∨ m.Effective rt w s)

/-- The server after any timely messages. -/
def TimelyRun (rt : Runtime) (w : Wire) : Server → Prop :=
  Reachable (StartsIndexed rt) fun s s' ↦ ∃ m : Message, m.Handled rt w s s' ∧ m.Timely rt w s

theorem TimelyRun.ready (h : TimelyRun rt w s) : Ready rt s.bc := by
  refine Reachable.invariant (P := fun s ↦ Ready rt s.bc) (fun s hstart ↦ hstart.1) ?_ h
  rintro s s' - hready ⟨m, hhandled, hm, -⟩
  exact (hhandled.cases hready hm).1

/-- **When the index follows the chain**: after every message of a run of timely messages that is
not followed by a request; and on a well-formed store a usable message that is not followed by one
leaves the index of the chain only if it is timely. -/
theorem chainstate_of_run (rt : Runtime) (w : Wire) :
    (∀ s s' m, TimelyRun rt w s → Message.Handled rt w s s' m → m.Timely rt w s →
      s'.sent = s.sent → UTXOSet.HoldsFindUTXO rt s'.bc) ∧
    ∀ s s' m, Ready rt s.bc → Message.Usable rt w s m → m.Handled rt w s s' →
      s'.sent = s.sent → (UTXOSet.HoldsFindUTXO rt s'.bc ↔ m.Timely rt w s) := by
  constructor
  · intro s s' m hrun hhandled htimely
    exact (hhandled.follows_iff hrun.ready htimely.1).2 htimely.2
  · intro s s' m hready hm hhandled hsent
    have hiff := hhandled.follows_iff hready hm
    rw [imp_iff_right hsent] at hiff
    exact hiff.trans (and_iff_right hm).symm

end Server

namespace Sample

open Server Blockchain

/-- The sample chain with its index. -/
@[irreducible] def indexedChain : Blockchain :=
  match UTXOSet.reindex runtime (.listed _) chain with
  | .ok (_, bc) => bc
  | .error _ => chain

/-- A server whose index is that of its chain. -/
def indexed : Server := { server with bc := indexedChain }

theorem ready_chain : Ready runtime chain := by
  refine ⟨created_chain.wellFormed, ?_⟩
  show AllStored runtime _ (storeTip runtime ⟨[], DB.empty⟩ genesis).db
  exact allStored_created (by decide) (by decide : Indexable genesis.canon)

theorem exists_reindex_chain :
    ∃ r, UTXOSet.reindex runtime (.listed _) chain = .ok (r, indexedChain) := by
  obtain ⟨r, bc, hreindex, -, -⟩ := UTXOSet.exists_reindex blocks_chain (.listed _)
  have hbc : indexedChain = bc := by
    unfold indexedChain
    simp only [hreindex]
  rw [hbc]
  exact ⟨r, hreindex⟩

theorem indexStep_chain : IndexStep chain indexedChain := by
  obtain ⟨r, hreindex⟩ := exists_reindex_chain
  exact UTXOSet.indexStep_of_reindex hreindex

theorem startsIndexed_indexed : StartsIndexed runtime indexed := by
  obtain ⟨r, hreindex⟩ := exists_reindex_chain
  show Ready runtime indexedChain ∧ UTXOSet.HoldsFindUTXO runtime indexedChain
  exact ⟨ready_of_indexStep ready_chain indexStep_chain,
    holdsFindUTXO_of_reindex ready_chain hreindex⟩

/-- A block that pays out of nothing. -/
def giving : Block := child [gift [2]] []

theorem minedChain_indexedChain : MinedChain runtime indexedChain :=
  .next (.start created_chain) (Or.inr indexStep_chain)

theorem addBlock_giving : indexedChain.addBlock runtime [] giving =
    .ok (.ok (), indexedChain.storeTip runtime giving) := by
  have hwf := minedChain_indexedChain.wellFormed
  obtain ⟨utxo, hindexed⟩ := indexStep_chain
  rw [hindexed] at hwf ⊢
  exact addBlock_eq_storeTip hwf (getElem?_chain_of_ne (by decide) (by decide))
    (checkConsensus_of_unsigned rfl rfl []) (by decide) storedBlock_genesis (by decide)

theorem blocks_giving :
    (indexedChain.storeTip runtime giving).blocks runtime = .ok [giving, genesis] := by
  have hwf := minedChain_indexedChain.wellFormed
  obtain ⟨utxo, hindexed⟩ := indexStep_chain
  have hfree : indexedChain.db.blocks[giving.hash]? = none := by
    rw [hindexed]
    exact getElem?_chain_of_ne (by decide) (by decide)
  have hprev : giving.prevBlockHash = indexedChain.tip := by
    rw [hindexed]
    rfl
  exact (blocks_storeTip_iff hwf minedChain_indexedChain.grown (by decide) (by decide) hprev).2
    ⟨(hwf.getElem?_eq_none_iff.1 hfree).2, _, indexStep_chain.blocks_eq.trans blocks_chain, rfl⟩

theorem carriesBlock_giving :
    CarriesBlock runtime wire (blockMessage runtime wire (ascii "8001") giving) (ascii "8001")
      giving := by
  refine ⟨giving.serialize runtime, payloadOf_message .., ?_⟩
  decide +kernel

/-- The index of the chain without the block is not that of the chain with it. -/
theorem not_holdsFindUTXO_giving :
    ¬ UTXOSet.HoldsFindUTXO runtime (indexedChain.storeTip runtime giving) := by
  rintro ⟨utxo', hutxo', -, hindex'⟩
  have hsome : (returned ((indexedChain.storeTip runtime giving).findUTXO runtime)).any
      (fun utxo ↦ utxo[Hex.encode [2]]?.isSome) = true := by
    decide +kernel
  have hnone : (indexedChain.storeTip runtime giving).db.utxo[([2] : Bytes)]? = none := by
    decide +kernel
  rw [hutxo'] at hsome
  change utxo'[Hex.encode [2]]?.isSome = true at hsome
  rw [hindex', Option.map_eq_none_iff] at hnone
  rw [hnone] at hsome
  cases hsome

end Sample

namespace Server

open Blockchain Transition

/-- A block that comes when nothing is in transit is indexed. -/
theorem chainstate_of_run_giving :
    ∃ s', Sample.indexed.handleBlock Sample.runtime Sample.wire Sample.connEnv
      (blockMessage Sample.runtime Sample.wire (ascii "8001") Sample.giving) = .ok s' ∧
        s'.sent = [] ∧ UTXOSet.HoldsFindUTXO Sample.runtime s'.bc := by
  obtain ⟨r, bc, hreindex, -⟩ := UTXOSet.exists_reindex Sample.blocks_giving (.listed _)
  have hhandle : Sample.indexed.handleBlock Sample.runtime Sample.wire Sample.connEnv
      (blockMessage Sample.runtime Sample.wire (ascii "8001") Sample.giving) =
        .ok { Sample.indexed with bc := bc } := by
    rw [Sample.carriesBlock_giving.handleBlock_eq Sample.addBlock_giving]
    exact nextInTransit_of_nil rfl hreindex
  have htimely : (Message.block Sample.connEnv (blockMessage Sample.runtime Sample.wire
      (ascii "8001") Sample.giving)).Timely Sample.runtime Sample.wire Sample.indexed := by
    refine ⟨fun addrFrom b hcarries ↦ ?_, Or.inl Sample.startsIndexed_indexed.2⟩
    obtain ⟨rfl, rfl⟩ := Sample.carriesBlock_giving.unique hcarries
    exact ⟨rfl, fun _ _ ↦ by decide⟩
  exact ⟨_, hhandle, rfl, (chainstate_of_run Sample.runtime Sample.wire).1 _ _ (.block _ _)
    (.start Sample.startsIndexed_indexed) hhandle htimely rfl⟩

/-- **The index falls behind for good**: a block after which another was announced is not indexed,
and the next message carries no block. -/
theorem handleBlock_leaves_index_behind :
    ¬ ∀ (rt : Runtime) (w : Wire) (s s' : Server) (m : Message),
      Reachable (fun s ↦ Reached rt s.bc ∧ UTXOSet.HoldsFindUTXO rt s.bc)
        (fun s s' ↦ ∃ m : Message, m.Handled rt w s s') s → m.Handled rt w s s' →
      s'.sent = s.sent → UTXOSet.HoldsFindUTXO rt s'.bc := by
  intro hclaim
  have hreached : Reached Sample.runtime Sample.indexed.bc :=
    .next (.start Sample.created_chain) (Or.inr (Or.inr Sample.indexStep_chain))
  -- two blocks are announced
  obtain ⟨⟨request, -, hinv⟩, -⟩ := @Tracker.step_hear Sample.runtime Sample.wire
    Sample.connEnv (ascii "8001") [1] [[9]] ⟨Sample.indexed, []⟩
  generalize hs₁ : Tracker.server (Tracker.hear Sample.wire Sample.connEnv (ascii "8001") [1]
    [[9]] ⟨Sample.indexed, []⟩) = s₁ at hinv
  -- the first of them comes
  have hadd : s₁.bc.addBlock Sample.runtime Sample.connEnv.authorizedKeys Sample.giving =
      .ok (.ok (), Sample.indexedChain.storeTip Sample.runtime Sample.giving) := by
    rw [← hs₁]
    exact Sample.addBlock_giving
  have hblock := Sample.carriesBlock_giving.handleBlock_eq hadd
  rw [nextInTransit_of_cons (by rw [← hs₁]; rfl)] at hblock
  -- then something that is no block
  have hbroken : ∀ s : Server, s.handleBlock Sample.runtime Sample.wire Sample.connEnv
      (commandToBytes "block" ++ Sample.wire.gobBlock.encode ⟨ascii "8001", []⟩) = .ok s := by
    intro s
    have hempty : deserializeBlock Sample.runtime [] =
        .error (.msg "cannot deserialize empty block data") := rfl
    simp only [handleBlock, payloadOf_message, hempty]
  have hbehind := hclaim Sample.runtime Sample.wire _ _ (.block Sample.connEnv _)
    (.next (.next (.start ⟨hreached, Sample.startsIndexed_indexed.2⟩)
      ⟨.inv Sample.connEnv request, hinv⟩) ⟨.block Sample.connEnv _, hblock⟩) (hbroken _) rfl
  rw [sendGetData_bc] at hbehind
  exact Sample.not_holdsFindUTXO_giving hbehind

end Server

end GoBlockchain
