import GoBlockchain.Core.MinedRuns

/-!
# Difficulty retargeting

`MineBlock` asks `CalculateNewDifficulty` for the difficulty of a block whose own height is a
multiple of the interval, but `CalculateNewDifficulty` adjusts only if the height of the block
*before* it is one. Of two neighbouring heights at most one is a multiple of ten, so the answer is
always the difficulty of the last block (`effectiveBits_of_nextBits`), and every block of a mined
chain has the difficulty of the genesis block (`MinedChain.bits_eq`).

`RetargetRule` is the rule the two functions are meant to implement together. A chain that never
adjusts obeys it exactly when no adjustment was due (`retargetRule_iff`).
-/

namespace GoBlockchain.Blockchain

open Transition

variable {rt : Runtime} {bc bc' : Blockchain} {bs : List Block}

/-! ### The rule -/

/-- The difficulty is to be adjusted for a block of this height. -/
def Adjusts (c : Block) : Prop :=
  0 < c.height.toInt ∧ c.height.toInt % 10 = 0

/-- The `Bits` after `bits`, when the blocks of an interval lie `time` seconds apart. -/
def retargeted (bits time : ℤ) : ℤ :=
  max 8 (min 24 (if time < 3000 then bits + 1 else if 12000 < time then bits - 1 else bits))

/-- The seconds between two blocks. -/
def elapsed (a d : Block) : ℤ :=
  d.timestamp.toInt - a.timestamp.toInt

/-- The difficulty of the blocks of a chain, tip first, follows the rule. -/
structure RetargetRule (bs : List Block) : Prop where
  /-- At a multiple of ten the difficulty is adjusted by the time between the blocks ten and one
  below. -/
  adjusts : ∀ (i : ℕ) (c : Block), bs[i]? = some c → Adjusts c →
    ∃ d a, bs[i + 1]? = some d ∧ d.height.toInt = c.height.toInt - 1 ∧
      bs[i + 10]? = some a ∧ a.height.toInt = c.height.toInt - 10 ∧
      c.bits.toInt = retargeted d.bits.toInt (elapsed a d)
  /-- All other blocks keep the difficulty. -/
  keeps : ∀ (i : ℕ) (c d : Block), bs[i]? = some c → bs[i + 1]? = some d → ¬ Adjusts c →
    c.bits = d.bits

/-- No adjustment is due on the chain: the blocks ten and one below a multiple of ten lie between
half and twice the target time apart. -/
def Steady (bs : List Block) : Prop :=
  ∀ (i : ℕ) (c d a : Block), bs[i]? = some c → Adjusts c → bs[i + 1]? = some d →
    bs[i + 10]? = some a → 3000 ≤ elapsed a d ∧ elapsed a d ≤ 12000

theorem retargeted_sixteen_iff (time : ℤ) :
    (16 : ℤ) = retargeted 16 time ↔ 3000 ≤ time ∧ time ≤ 12000 := by
  rw [retargeted]
  split
  · omega
  · split <;> omega

/-! ### The difficulty of mined blocks -/

/-- Of two neighbouring heights one is not a multiple of the interval, also where they wrap. -/
theorem height_mod_ne_zero {h : Int64} (hnext : (h + 1) % difficultyAdjustmentInterval = 0) :
    h % difficultyAdjustmentInterval ≠ 0 := by
  intro hzero
  have hten : difficultyAdjustmentInterval.toInt = 10 := rfl
  have hone : (1 : Int64).toInt = 1 := rfl
  have hlt := h.toInt_lt
  have hge := h.le_toInt
  have hmod : (h.toInt).tmod 10 = 0 := by
    rw [← hten, ← Int64.toInt_mod, hzero]
    rfl
  have hmod' : ((h.toInt + 1).bmod (2 ^ 64)).tmod 10 = 0 := by
    rw [← hten, ← hone, ← Int64.toInt_add, ← Int64.toInt_mod, hnext]
    rfl
  rw [← Int.dvd_iff_tmod_eq_zero] at hmod hmod'
  rcases eq_or_ne h.toInt (2 ^ 63 - 1) with hmax | hmax
  · omega
  · rw [Int.bmod_eq_of_le (by norm_num; omega) (by norm_num; omega)] at hmod'
    omega

/-- **The difficulty `MineBlock` asks for is that of the last block.** -/
theorem effectiveBits_of_nextBits {db : DB} {last : Block} {bits : Int64}
    (h : nextBits rt db last = .ok (.ok bits)) :
    effectiveBits bits = effectiveBits last.bits := by
  rw [nextBits] at h
  split at h
  · next hdue =>
    rcases hanchor : findAnchor rt db (last.height + 1 - difficultyAdjustmentInterval)
        (walkFuel db) last with e | e | anchor
    · simp [hanchor] at h
    · simp [hanchor] at h
    · simp only [hanchor, Except.ok.injEq] at h
      rw [← h, calculateNewDifficulty, if_pos (height_mod_ne_zero hdue)]
  · simp only [Except.ok.injEq] at h
    rw [← h, effectiveBits, effectiveBits]
    split <;> simp_all [targetBits]

theorem bits_of_mineBlock {env : MineEnv} {txs : List Transaction} {b last : Block}
    (hwf : WellFormed rt bc) (hlast : storedBlock rt bc.db bc.tip = some last)
    (h : bc.mineBlock rt env txs = .ok (.ok b, bc')) :
    b.bits = effectiveBits last.bits := by
  obtain ⟨-, ⟨lastHash, last', bits, hget, hbits, hnew⟩, -⟩ := mineBlock_eq_ok h
  rw [hwf.getLastBlock_eq hlast] at hget
  obtain ⟨rfl, rfl⟩ := Prod.mk.inj (Except.ok.inj hget)
  obtain ⟨⟨nonce, hash, -, rfl⟩, -⟩ := newBlock_eq_ok rt hnew
  exact effectiveBits_of_nextBits hbits

/-! ### Whole chains -/

/-- What the blocks of a mined chain have by their positions, tip first. -/
structure MinedHeaders (bs : List Block) : Prop where
  /-- The heights count up from zero, modulo the word size. -/
  height_eq : ∀ (i : ℕ) (c : Block), bs[i]? = some c →
    c.height.toInt = ((bs.length : ℤ) - 1 - i).bmod (2 ^ 64)
  /-- The difficulty is that of the genesis block. -/
  bits_eq : ∀ c ∈ bs, c.bits = targetBits

theorem Created.minedHeaders (h : Created rt bc) (hbs : bc.blocks rt = .ok bs) :
    MinedHeaders bs := by
  obtain ⟨last, rest, rfl, hlast, -⟩ := exists_cons_of_blocks h.wellFormed hbs
  obtain ⟨_, g, -, -, -, heq⟩ := h.blocks_eq_ok hbs
  obtain ⟨rfl, rfl⟩ := List.cons.inj heq
  have hheader : last.height = 0 ∧ last.bits = targetBits := by
    obtain ⟨now, random, address, hcreate⟩ := h
    obtain ⟨cbtx, genesis, -, hnew, rfl⟩ := createBlockchain_eq_ok hcreate
    obtain ⟨⟨nonce, hash, hlen, rfl⟩, -⟩ := newBlock_eq_ok rt hnew
    rw [storedBlock_storeTip (ne_tipKey_of_length hlen), storeTip, if_pos rfl] at hlast
    rw [← Option.some.inj hlast]
    exact ⟨rfl, rfl⟩
  constructor
  · intro i c hc
    rw [List.getElem?_singleton, Option.ite_none_right_eq_some, Option.some.injEq] at hc
    obtain ⟨rfl, rfl⟩ := hc
    rw [hheader.1]
    simp
  · intro c hc
    rw [List.mem_singleton.1 hc, hheader.2]

theorem MinedHeaders.cons {b last : Block} {rest : List Block} (h : MinedHeaders (last :: rest))
    (hheight : b.height = last.height + 1) (hbits : b.bits = effectiveBits last.bits) :
    MinedHeaders (b.canon :: last :: rest) := by
  have hlast : last.height.toInt = ((rest.length : ℤ)).bmod (2 ^ 64) := by
    have hzero := h.height_eq 0 last rfl
    rw [List.length_cons] at hzero
    rw [hzero]
    congr 1
    push_cast
    ring
  constructor
  · intro i c hc
    cases i with
    | zero =>
      obtain rfl := Option.some.inj hc
      have hone : (1 : Int64).toInt = 1 := rfl
      rw [Block.canon_height, hheight, Int64.toInt_add, hlast, hone, Int.bmod_add_bmod]
      simp
    | succ i =>
      rw [h.height_eq i c hc]
      simp only [List.length_cons]
      congr 1
      push_cast
      ring
  · intro c hc
    rcases List.mem_cons.1 hc with rfl | hc
    · show b.bits = targetBits
      rw [hbits, h.bits_eq last List.mem_cons_self]
      rfl
    · exact h.bits_eq c hc

/-- **Every block of a mined chain has the difficulty of the genesis block.** -/
theorem MinedChain.minedHeaders (h : MinedChain rt bc) (hbs : bc.blocks rt = .ok bs) :
    MinedHeaders bs := by
  refine Reachable.invariant (P := fun bc ↦ ∀ bs, bc.blocks rt = .ok bs → MinedHeaders bs) ?_ ?_ h
    bs hbs
  · exact fun bc hinit bs hbs ↦ hinit.minedHeaders hbs
  · rintro bc bc' hreach ih (⟨env, txs, b, hmine⟩ | ⟨utxo, rfl⟩) bs' hbs'
    · have hwf := MinedChain.wellFormed hreach
      have hm := mined_of_mineBlock hwf hmine
      obtain ⟨-, bs, hbs, rfl⟩ := (hm.blocks_eq_ok_iff hreach).1 hbs'
      obtain ⟨last, rest, rfl, hlast, -⟩ := exists_cons_of_blocks hwf hbs
      obtain ⟨last', hlast', hheight⟩ := hm.height_eq
      obtain rfl := Option.some.inj (hlast.symm.trans hlast')
      exact (ih _ hbs).cons hheight (bits_of_mineBlock hwf hlast hmine)
    · exact ih bs' hbs'

/-- A block at a multiple of ten has the blocks one and ten below it. -/
theorem MinedHeaders.exists_below (h : MinedHeaders bs) {i : ℕ} {c : Block}
    (hc : bs[i]? = some c) (hadj : Adjusts c) :
    ∃ d a, bs[i + 1]? = some d ∧ d.height.toInt = c.height.toInt - 1 ∧
      bs[i + 10]? = some a ∧ a.height.toInt = c.height.toInt - 10 := by
  have hheight := h.height_eq i c hc
  obtain ⟨hpos, hmod⟩ := hadj
  have hi : i < bs.length := (List.getElem?_eq_some_iff.1 hc).1
  -- the height is at least ten, and so is the number of blocks below, of which it is a remainder
  have hten : i + 10 < bs.length := by
    by_contra hshort
    rw [Int.bmod_eq_of_le (by norm_num; omega) (by norm_num; omega)] at hheight
    omega
  have hbelow : ∀ k ≤ 10, ((bs.length : ℤ) - 1 - (i + k : ℕ)).bmod (2 ^ 64) =
      c.height.toInt - (k : ℤ) := by
    intro k hk
    have hlt := c.height.toInt_lt
    have hshift : (bs.length : ℤ) - 1 - (i + k : ℕ) = ((bs.length : ℤ) - 1 - i) - k := by
      push_cast
      ring
    rw [hshift, ← Int.bmod_sub_bmod, ← hheight]
    exact Int.bmod_eq_of_le (by norm_num; omega) (by norm_num; omega)
  refine ⟨bs[i + 1], bs[i + 10], List.getElem?_eq_getElem _, ?_, List.getElem?_eq_getElem _, ?_⟩
  · rw [h.height_eq (i + 1) _ (List.getElem?_eq_getElem _), hbelow 1 (by norm_num)]
    rfl
  · rw [h.height_eq (i + 10) _ (List.getElem?_eq_getElem _), hbelow 10 (by norm_num)]
    rfl

/-- **When the difficulty follows the rule**: exactly on the chains on which no adjustment is ever
due. -/
theorem retargetRule_iff (h : MinedChain rt bc) (hbs : bc.blocks rt = .ok bs) :
    RetargetRule bs ↔ Steady bs := by
  have hheaders := h.minedHeaders hbs
  have hbits : ∀ (i : ℕ) (c : Block), bs[i]? = some c → c.bits = targetBits := fun i c hc ↦
    hheaders.bits_eq c (List.mem_of_getElem? hc)
  have hsixteen : targetBits.toInt = 16 := rfl
  constructor
  · intro hrule i c d a hc hadj hd ha
    obtain ⟨d', a', hd', -, ha', -, heq⟩ := hrule.adjusts i c hc hadj
    obtain rfl := Option.some.inj (hd.symm.trans hd')
    obtain rfl := Option.some.inj (ha.symm.trans ha')
    rw [hbits i c hc, hbits (i + 1) d hd, hsixteen] at heq
    exact (retargeted_sixteen_iff _).1 heq
  · intro hsteady
    constructor
    · intro i c hc hadj
      obtain ⟨d, a, hd, hdheight, ha, haheight⟩ := hheaders.exists_below hc hadj
      refine ⟨d, a, hd, hdheight, ha, haheight, ?_⟩
      rw [hbits i c hc, hbits (i + 1) d hd, hsixteen]
      exact (retargeted_sixteen_iff _).2 (hsteady i c d a hc hadj hd ha)
    · intro i c d hc hd _
      rw [hbits i c hc, hbits (i + 1) d hd]

end GoBlockchain.Blockchain

namespace GoBlockchain.Sample

open Blockchain

/-- Mine a block at a time, with a coinbase that carries the time. -/
def mineAt (bc : Blockchain) (now : Int64) : Option Blockchain :=
  (completed (bc.mineBlock runtime ⟨now, fun _ ↦ false⟩
    [⟨some [1], [⟨[], -1, [], intToHex now, [], false⟩], [owned 10]⟩])).map Prod.snd

theorem minedChain_of_mineAt {times : List Int64} {bc : Blockchain}
    (h : Transition.run mineAt chain times = some bc) : MinedChain runtime bc := by
  have hstart : MinedChain runtime chain := .start created_chain
  refine Transition.reachable_run (fun bc now bc' hstep ↦ ?_) hstart h
  obtain ⟨⟨b, bc₁⟩, hmine, rfl⟩ := Option.map_eq_some_iff.1 hstep
  exact Or.inl ⟨_, _, _, completed_eq_some hmine⟩

end GoBlockchain.Sample

namespace GoBlockchain.Blockchain

/-- The times of the blocks after mining at these times, tip first. -/
def sampleTimes (times : List Int64) : Option (List Int64) :=
  (Transition.run Sample.mineAt Sample.chain times).bind fun bc ↦
    (Sample.returned (bc.blocks Sample.runtime)).map fun bs ↦ bs.map Block.timestamp

theorem exists_sampleChain {times ts : List Int64} (h : sampleTimes times = some ts) :
    ∃ bc bs, MinedChain Sample.runtime bc ∧ bc.blocks Sample.runtime = .ok bs ∧
      bs.map Block.timestamp = ts := by
  obtain ⟨bc, hrun, hbs⟩ := Option.bind_eq_some_iff.1 h
  obtain ⟨bs, hbs, hts⟩ := Option.map_eq_some_iff.1 hbs
  exact ⟨bc, bs, Sample.minedChain_of_mineAt hrun, Sample.returned_eq_some hbs, hts⟩

/-- Ten blocks, one every 500 seconds: no adjustment is due at height ten. -/
theorem retargetRule_iff_sample :
    ∃ bc bs, MinedChain Sample.runtime bc ∧ bc.blocks Sample.runtime = .ok bs ∧
      bs.length = 11 ∧ RetargetRule bs := by
  have htimes : sampleTimes [500, 1000, 1500, 2000, 2500, 3000, 3500, 4000, 4500, 5000] =
      some [5000, 4500, 4000, 3500, 3000, 2500, 2000, 1500, 1000, 500, 0] := by
    decide +kernel
  obtain ⟨bc, bs, hchain, hbs, hmap⟩ := exists_sampleChain htimes
  have hlen : bs.length = 11 := by simpa using congrArg List.length hmap
  refine ⟨bc, bs, hchain, hbs, hlen, (retargetRule_iff hchain hbs).2 ?_⟩
  intro i c d a hc hadj hd ha
  -- only the tip is at a positive multiple of ten
  have hi : i < 11 := hlen ▸ (List.getElem?_eq_some_iff.1 hc).1
  have hheight := (hchain.minedHeaders hbs).height_eq i c hc
  rw [hlen, Int.bmod_eq_of_le (by norm_num; omega) (by norm_num; omega)] at hheight
  obtain ⟨hpos, hmod⟩ := hadj
  obtain rfl : i = 0 := by omega
  have hd' : d.timestamp = 4500 := by
    have hget := congrArg (fun l ↦ l[1]?) hmap
    simpa [hd] using hget
  have ha' : a.timestamp = 0 := by
    have hget := congrArg (fun l ↦ l[10]?) hmap
    simpa [ha] using hget
  rw [elapsed, hd', ha']
  decide

/-- **The difficulty is not adjusted**: ten blocks within a second, and the tenth is as easy as the
others. -/
theorem mineBlock_never_retargets :
    ¬ ∀ (rt : Runtime) (bc : Blockchain) (bs : List Block), MinedChain rt bc →
      bc.blocks rt = .ok bs → RetargetRule bs := by
  intro hclaim
  have htimes : sampleTimes [0, 0, 0, 0, 0, 0, 0, 0, 0, 1] =
      some [1, 0, 0, 0, 0, 0, 0, 0, 0, 0, 0] := by
    decide +kernel
  obtain ⟨bc, bs, hchain, hbs, hmap⟩ := exists_sampleChain htimes
  have hlen : bs.length = 11 := by simpa using congrArg List.length hmap
  have hheaders := hchain.minedHeaders hbs
  have hc : bs[0]? = some bs[0] := List.getElem?_eq_getElem _
  have hheight : bs[0].height.toInt = 10 := by
    rw [hheaders.height_eq 0 _ hc, hlen]
    rfl
  obtain ⟨d, a, hd, -, ha, -, hbits⟩ := (hclaim _ bc bs hchain hbs).adjusts 0 _ hc
    ⟨by rw [hheight]; norm_num, by rw [hheight]; norm_num⟩
  have hd' : d.timestamp = 0 := by
    have hget := congrArg (fun l ↦ l[1]?) hmap
    simpa [hd] using hget
  have ha' : a.timestamp = 0 := by
    have hget := congrArg (fun l ↦ l[10]?) hmap
    simpa [ha] using hget
  rw [hheaders.bits_eq _ (List.mem_of_getElem? hc), hheaders.bits_eq d (List.mem_of_getElem? hd),
    elapsed, hd', ha'] at hbits
  revert hbits
  decide

end GoBlockchain.Blockchain
