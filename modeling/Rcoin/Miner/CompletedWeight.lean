/-
  The weight of a completed block against the limit its template was filled to.  Header, count and
  coinbase of a block of the regression test network fit into the reserve of 4000.  On the other
  networks the solution alone takes more than that, and a limit is kept when the whole pool and
  what the reserve is for are within it; but the limit is that far below `MAX_BLOCK_WEIGHT` that
  this one is kept always.
-/
import Rcoin.Miner.Template
import Rcoin.Script.Standard

namespace Rcoin

open List CTxMemPool SortedSet

/-! ## The weight of a template -/

section

variable {env : TemplateEnv} {pool : CTxMemPool} {fuel : Nat} {scriptPubKeyIn : CScript}
  {fMineWitnessTx : Bool} {template : CBlockTemplate}

theorem createNewBlock_eq_some (hshort : scriptPubKeyIn.length < 38)
    (h : env.createNewBlock pool fuel scriptPubKeyIn fMineWitnessTx = some template) :
    ∃ s nSubsidy witnessroot, (env.assembler fMineWitnessTx).addPackageTxs pool fuel = some s ∧
      template.block.vtx =
        env.committedCoinbase s.block.nFees nSubsidy scriptPubKeyIn witnessroot :: s.block.vtx := by
  unfold TemplateEnv.createNewBlock at h
  simp only [Option.bind_eq_bind, Option.bind_eq_some_iff] at h
  obtain ⟨s, hs, nSubsidy, -, u, -, htemplate⟩ := h
  obtain ⟨witnessroot, hvtx⟩ :=
    generateCoinbaseCommitment_snd env s.block.nFees nSubsidy hshort s.block.vtx
  refine ⟨s, nSubsidy, witnessroot, hs, ?_⟩
  obtain rfl := Option.some.inj htemplate
  exact hvtx

theorem createNewBlock_exists {s : PackageState} {nSubsidy : Int} (scriptPubKeyIn : CScript)
    (hs : (env.assembler fMineWitnessTx).addPackageTxs pool fuel = some s)
    (hsubsidy : getBlockSubsidyInt env.chainparams.nSubsidyHalvingInterval env.nHeight = some nSubsidy)
    (hvalid : ∀ block, env.testBlockValidity block = true) :
    ∃ template, env.createNewBlock pool fuel scriptPubKeyIn fMineWitnessTx = some template := by
  rw [← Option.isSome_iff_exists]
  simp [TemplateEnv.createNewBlock, hs, hsubsidy, hvalid]

end

/-- Every entry has the weight of its transaction, as the constructor takes it. -/
def EntryWeights (pool : CTxMemPool) : Prop :=
  ∀ h e, pool.mapTx.lookup h = some e → e.nTxWeight = getTransactionWeight e.tx

theorem EntryWeights.weightsOk {pool : CTxMemPool} (h : EntryWeights pool) : WeightsOk pool := by
  intro k e he
  rw [h k e he]
  exact Int.natCast_nonneg _

/-- A block that was mined on a template with a pay-to-pubkey-hash coinbase script. -/
structure Mined (params : CChainParams) (nBlockMaxWeight : Nat) (env : TemplateEnv)
    (pool : CTxMemPool) (block : CFullBlock) : Prop where
  chainparams : env.chainparams = params
  limit : env.nBlockMaxWeight = configuredMaxWeight nBlockMaxWeight
  good : Good env.toMempoolEnv pool
  weights : EntryWeights pool
  template : ∃ fuel keyID scriptPubKeyIn fMineWitnessTx template,
    getScriptForDestination (.keyID keyID) = some scriptPubKeyIn ∧
      env.createNewBlock pool fuel scriptPubKeyIn fMineWitnessTx = some template ∧
        CompletedBlock params template block

theorem length_keyIDScript {keyID : Uint160} {scriptPubKeyIn : CScript}
    (h : getScriptForDestination (.keyID keyID) = some scriptPubKeyIn) :
    scriptPubKeyIn.length = 25 := by
  obtain rfl := Option.some.inj h
  have hlen := keyID.length_data
  have hdirect : 20 < OP_PUSHDATA1.toNat := by decide
  simp [pushVector, hdirect, hlen]

section

variable {params : CChainParams} {nBlockMaxWeight : Nat} {env : TemplateEnv} {pool : CTxMemPool}
  {block : CFullBlock}

theorem TemplateOk.weight {env : AssemblerEnv} {block : BlockAssembler}
    (hweights : EntryWeights pool) (h : TemplateOk env pool block) :
    block.nBlockWeight = 4000 + ((block.vtx.map getTransactionWeight).sum : Nat) := by
  have hentries : ∀ order : List Uint256, ((pool.entriesAt order).map (·.nTxWeight)).sum =
      ((((pool.entriesAt order).map (·.tx)).map getTransactionWeight).sum : Nat) := by
    intro order
    rw [map_map, Nat.cast_list_sum, map_map]
    refine congrArg sum (map_congr_left fun e he => ?_)
    obtain ⟨x, -, hx⟩ := mem_entriesAt he
    exact hweights x e hx
  rw [h.nBlockWeight, hentries, ← h.vtx]

theorem TemplateOk.weight_le {env : AssemblerEnv} {block : BlockAssembler}
    (hweights : EntryWeights pool) (hlimit : 4000 ≤ env.nBlockMaxWeight)
    (h : TemplateOk env pool block) :
    4000 + ((block.vtx.map getTransactionWeight).sum : Nat) ≤ env.nBlockMaxWeight := by
  cases hvtx : block.vtx with
  | nil => simpa using hlimit
  | cons tx rest =>
    have hpos : 0 < block.vtx.length := by simp [hvtx]
    have hall := h.belowMaxWeight block.vtx.length hpos (le_refl _)
    have hlen : (pool.entriesAt block.txids).length = block.vtx.length := by
      conv_rhs => rw [h.vtx]
      rw [length_map]
    rw [← hlen, take_length, ← h.nBlockWeight, h.weight hweights, hvtx] at hall
    omega

/-- The weight of all that is in the pool. -/
def poolWeight (pool : CTxMemPool) : Nat :=
  ∑ x ∈ pool.txids, (pool.mapTx.lookup x).elim 0 fun e => getTransactionWeight e.tx

theorem sum_entriesAt_le (pool : CTxMemPool) (f : CTxMemPoolEntry → Nat) {order : List Uint256}
    (hnodup : order.Nodup) :
    ((pool.entriesAt order).map f).sum ≤ ∑ x ∈ pool.txids, (pool.mapTx.lookup x).elim 0 f := by
  rw [sum_entriesAt, ← List.sum_toFinset _ hnodup]
  refine Finset.sum_le_sum_of_ne_zero fun x _ hx => mem_txids.mpr (mem_mapTx_iff.mpr ?_)
  cases he : pool.mapTx.lookup x with
  | none =>
    rw [he] at hx
    exact absurd rfl hx
  | some e => exact ⟨e, rfl⟩

theorem TemplateOk.weight_le_pool {env : AssemblerEnv} {block : BlockAssembler}
    (h : TemplateOk env pool block) :
    (block.vtx.map getTransactionWeight).sum ≤ poolWeight pool ∧
      block.vtx.length ≤ pool.txids.card := by
  have hweight := sum_entriesAt_le pool (fun e => getTransactionWeight e.tx) h.nodup
  have hcount := sum_entriesAt_le pool (fun _ => 1) h.nodup
  have hone : ∑ x ∈ pool.txids, (pool.mapTx.lookup x).elim 0 (fun _ => 1) ≤ pool.txids.card := by
    rw [Finset.card_eq_sum_ones]
    refine Finset.sum_le_sum fun x _ => ?_
    cases pool.mapTx.lookup x <;> simp
  rw [h.vtx, map_map, length_map]
  refine ⟨hweight, le_trans ?_ hone⟩
  simpa using hcount

theorem getSizeOfCompactSize_mono {m n : Nat} (h : m ≤ n) :
    getSizeOfCompactSize m ≤ getSizeOfCompactSize n := by
  unfold getSizeOfCompactSize
  grind

/-- A block of everything in the pool weighs no more. -/
def completedBound (params : CChainParams) (pool : CTxMemPool) : Nat :=
  4 * (108 + getSizeOfCompactSize params.equihash.solutionWidth + params.equihash.solutionWidth +
    getSizeOfCompactSize (pool.txids.card + 1)) + 608 + poolWeight pool

theorem configuredMaxWeight_bounds (nBlockMaxWeight : Nat) :
    4000 ≤ configuredMaxWeight nBlockMaxWeight ∧
      configuredMaxWeight nBlockMaxWeight ≤ MAX_BLOCK_WEIGHT - 4000 := by
  unfold configuredMaxWeight MAX_BLOCK_WEIGHT
  omega

theorem CompletedBlock.weight {fuel : Nat} {scriptPubKeyIn : CScript} {fMineWitnessTx : Bool}
    {template : CBlockTemplate} (hlen : scriptPubKeyIn.length = 25)
    (htemplate : env.createNewBlock pool fuel scriptPubKeyIn fMineWitnessTx = some template)
    (h : CompletedBlock params template block) :
    ∃ s w, (env.assembler fMineWitnessTx).addPackageTxs pool fuel = some s ∧ 536 ≤ w ∧ w ≤ 608 ∧
      block.vtx.length = s.block.vtx.length + 1 ∧
      getBlockWeight block = 4 * (108 + getSizeOfCompactSize params.equihash.solutionWidth +
        params.equihash.solutionWidth + getSizeOfCompactSize block.vtx.length) + w +
          (s.block.vtx.map getTransactionWeight).sum := by
  obtain ⟨s, nSubsidy, witnessroot, hs, hvtx⟩ := createNewBlock_eq_some (by omega) htemplate
  obtain ⟨hmin, hmax⟩ := weight_committedCoinbase env s.block.nFees nSubsidy hlen witnessroot
  refine ⟨s, _, hs, hmin, hmax, by rw [h.vtx, hvtx, length_cons], ?_⟩
  rw [getBlockWeight_eq, length_serializeHeader, h.nSolution, h.vtx, hvtx, map_cons, sum_cons,
    length_cons]
  omega

theorem Mined.weight (h : Mined params nBlockMaxWeight env pool block) :
    ∃ selected w, 4000 + selected ≤ configuredMaxWeight nBlockMaxWeight ∧
      selected ≤ poolWeight pool ∧ block.vtx.length ≤ pool.txids.card + 1 ∧ 536 ≤ w ∧ w ≤ 608 ∧
      getBlockWeight block = 4 * (108 + getSizeOfCompactSize params.equihash.solutionWidth +
        params.equihash.solutionWidth + getSizeOfCompactSize block.vtx.length) + w + selected := by
  obtain ⟨fuel, keyID, scriptPubKeyIn, fMineWitnessTx, template, hscript, htemplate, hcompleted⟩ :=
    h.template
  obtain ⟨s, w, hs, hw, hw', hlen, hweight⟩ :=
    hcompleted.weight (length_keyIDScript hscript) htemplate
  have hgood : Good (env.assembler fMineWitnessTx).toMempoolEnv pool := h.good
  have hlimit : (env.assembler fMineWitnessTx).nBlockMaxWeight = configuredMaxWeight nBlockMaxWeight :=
    h.limit
  obtain ⟨hmin, -⟩ := configuredMaxWeight_bounds nBlockMaxWeight
  have hok := addPackageTxs_templateOk hgood h.weights.weightsOk hs
  have hle := hok.weight_le h.weights (by omega)
  obtain ⟨hpool, hcount⟩ := hok.weight_le_pool
  exact ⟨_, w, by omega, hpool, by omega, hw, hw', hweight⟩

theorem Mined.weight_le_max (h : Mined params nBlockMaxWeight env pool block) :
    getBlockWeight block ≤ MAX_BLOCK_WEIGHT := by
  obtain ⟨selected, w, hselected, -, -, -, hw, hweight⟩ := h.weight
  obtain ⟨-, hmax⟩ := configuredMaxWeight_bounds nBlockMaxWeight
  obtain ⟨-, hcount⟩ := getSizeOfCompactSize_bounds block.vtx.length
  have hheader : getSizeOfCompactSize params.equihash.solutionWidth + params.equihash.solutionWidth ≤
      1347 := by
    cases params <;> decide
  unfold MAX_BLOCK_WEIGHT at *
  omega

theorem Mined.weight_le_of_regTest (h : Mined .regTest nBlockMaxWeight env pool block) :
    (getBlockWeight block : Int) ≤ env.nBlockMaxWeight := by
  obtain ⟨selected, w, hselected, -, -, -, hw, hweight⟩ := h.weight
  obtain ⟨-, hcount⟩ := getSizeOfCompactSize_bounds block.vtx.length
  have hheader : getSizeOfCompactSize CChainParams.regTest.equihash.solutionWidth +
      CChainParams.regTest.equihash.solutionWidth = 37 := by decide
  have hlimit := h.limit
  omega

theorem Mined.weight_le_of_pool (h : Mined params nBlockMaxWeight env pool block)
    (hpool : (completedBound params pool : Int) ≤ env.nBlockMaxWeight) :
    (getBlockWeight block : Int) ≤ env.nBlockMaxWeight := by
  obtain ⟨selected, w, -, hselected, hcount, -, hw, hweight⟩ := h.weight
  have hsize := getSizeOfCompactSize_mono hcount
  unfold completedBound at hpool
  omega

theorem solution_size (hparams : params ≠ .regTest) :
    getSizeOfCompactSize params.equihash.solutionWidth + params.equihash.solutionWidth = 1347 := by
  cases params with
  | regTest => exact absurd rfl hparams
  | main => decide
  | test => decide

theorem Mined.le_weight (h : Mined params nBlockMaxWeight env pool block)
    (hparams : params ≠ .regTest) : 6360 ≤ getBlockWeight block := by
  obtain ⟨selected, w, -, -, -, hw, -, hweight⟩ := h.weight
  obtain ⟨hcount, -⟩ := getSizeOfCompactSize_bounds block.vtx.length
  have hheader := solution_size hparams
  omega

end

/-! ## The first package -/

theorem mem_vtx_of_first {env : AssemblerEnv} {pool : CTxMemPool} {c : PackageChoice}
    {mi : List Uint256} {e : CTxMemPoolEntry} (hgood : Good env.toMempoolEnv pool)
    (hweights : WeightsOk pool) (he : pool.mapTx.lookup c.iter = some e)
    (hturn : (PackageState.start env pool).turn env pool = some (.evaluate c mi))
    (hfee : env.blockMinFeeRate.getFee c.packageSize ≤ c.packageFees)
    (hfits : BlockAssembler.resetBlock.testPackage env c.packageSize c.packageSigOpsCost = true)
    (hfinal : ∀ A, testPackageTransactions env pool A = true) :
    ∃ fuel s, env.addPackageTxs pool fuel = some s ∧ e.tx ∈ s.block.vtx := by
  have hst := hgood.stored
  have hmem : c.iter ∈ pool.mapTx := mem_mapTx_iff.mpr ⟨e, he⟩
  have hnot : c.iter ∉ (PackageState.start env pool).block.inBlock := not_mem_empty _
  obtain ⟨A, -, hv⟩ := verdict_spec hst.hashes hst.tallied hmem hnot
  have hfits' : (PackageState.start env pool).block.testPackage env c.packageSize
      c.packageSigOpsCost ≠ false := by
    rw [ne_eq, Bool.not_eq_false]
    exact hfits
  rw [if_neg (not_lt.mpr hfee), if_neg hfits', if_neg (by simp [hfinal])] at hv
  obtain ⟨s1, hstep, hadded⟩ := step_add hst.hashes hst.tallied (.start env pool) hturn hv
  have hreached : SelectionReached env pool s1 := SelectionReached.start.next hstep
  have hself : c.iter ∈ s1.block.inBlock :=
    hadded.mem_inBlock.mpr (.inr ((hadded.package _).mpr ⟨.refl, hnot⟩))
  obtain ⟨fuel, s, hloop⟩ := packageLoop_ends hst.tallied hst.hashes hreached
  refine ⟨fuel + 1, s, ?_, ?_⟩
  · show env.packageLoop pool (fuel + 1) (PackageState.start env pool) = some s
    rw [AssemblerEnv.packageLoop, hstep]
    exact hloop fuel (le_refl _)
  · -- the rest of the run takes nothing out
    obtain ⟨s2, hreached2, hblock, hkept⟩ :=
      packageLoop_block hst.tallied hst.hashes hreached (hloop fuel (le_refl _))
    rw [hblock]
    exact hreached2.mem_vtx hst hweights he (hkept _ hself)

/-! ### One transaction that fills a block -/

namespace FullTemplate

open CTxMemPoolEntry

/-- The settings under which it is selected. -/
def env (params : CChainParams) (nBlockMaxWeight : Nat) : TemplateEnv where
  nBytesPerSigOp := 20
  getTransactionWeight tx := getTransactionWeight tx
  dynamicMemoryUsage _ := 0
  descendantScoreBegin _ := none
  nBlockMaxWeight := configuredMaxWeight nBlockMaxWeight
  blockMinFeeRate := ⟨0⟩
  fIncludeWitness := true
  nHeight := 1
  nLockTimeCutoff := 0
  chainparams := params
  nVersion := 4
  hashPrevBlock := 0
  nTime := 0
  nBits := 0
  isWitnessEnabled := false
  computeHash _ _ _ _ := 0
  blockWitnessMerkleRoot _ := 0
  hashCommitment _ := 0
  getLegacySigOpCount _ := 0
  testBlockValidity _ := true

/-- A transaction with an output script of so many bytes. -/
def filler (n : Nat) : CTransaction :=
  { hash := 1, vin := [⟨⟨100, 0⟩, [], 0, []⟩], vout := [⟨0, replicate n 0⟩] }

theorem weight_filler (n : Nat) :
    getTransactionWeight (filler n) = 4 * (59 + getSizeOfCompactSize n + n) := by
  rw [getTransactionWeight_of_noWitness (by rfl), length_serialize_noWitness, length_serializeVector,
    length_serializeVector]
  simp [filler, length_serializeTxIn, length_serializeTxOut, getSizeOfCompactSize]
  omega

def entry (params : CChainParams) (nBlockMaxWeight n : Nat) : CTxMemPoolEntry :=
  CTxMemPoolEntry.new (env params nBlockMaxWeight).toMempoolEnv (filler n) 0 0 0

/-- The pool that an entry has for itself. -/
def alone (e : CTxMemPoolEntry) (totalTxSize : Int) : CTxMemPool where
  mapTx := Maps.insertNew ∅ 1 e
  mapLinks := Maps.insertNew ∅ 1 {}
  mapNextTx := Maps.insertNew ∅ ⟨100, 0⟩ e.tx
  mapDeltas := ∅
  totalTxSize

theorem addUnchecked_alone (env : MempoolEnv) {e : CTxMemPoolEntry} {n : Nat} (htx : e.tx = filler n)
    (hstate : e.updateAncestorState 0 0 0 0 = some e) :
    env.addUnchecked 1 e ∅ (empty ∅) = some (alone e (env.getTxSize e)) := by
  have hmodify : (alone e 0).modifyEntry (updateAncestorState 0 0 0 0) 1 = some (alone e 0) := by
    have hlookup : (alone e 0).mapTx.lookup 1 = some e := rfl
    simp only [modifyEntry, hlookup, hstate]
    rfl
  -- there are no parents, so only the totals of the entry are written, and with what they were
  have hadd : env.addUnchecked 1 e ∅ (empty ∅) =
      ((alone e 0).modifyEntry (updateAncestorState 0 0 0 0) 1).bind fun p =>
        some { p with totalTxSize := p.totalTxSize + env.getTxSize e } := by
    obtain ⟨tx⟩ := e
    subst htx
    rfl
  rw [hadd, hmodify, Option.bind_some, alone, zero_add]
  rfl

section

variable (params : CChainParams) (nBlockMaxWeight n : Nat)

theorem nSizeWithAncestors_entry :
    (entry params nBlockMaxWeight n).nSizeWithAncestors = 59 + getSizeOfCompactSize n + n := by
  have hvirtual : ∀ env : MempoolEnv, ∀ nWeight : Nat,
      env.getVirtualTransactionSize ((4 * nWeight : Nat) : Int) 0 = nWeight := by
    intro env nWeight
    unfold MempoolEnv.getVirtualTransactionSize WITNESS_SCALE_FACTOR
    rw [zero_mul, Int.tdiv_eq_ediv_of_nonneg (by omega)]
    omega
  have hweight : (env params nBlockMaxWeight).getTransactionWeight (filler n) =
      ((4 * (59 + getSizeOfCompactSize n + n) : Nat) : Int) := congrArg Nat.cast (weight_filler n)
  simp only [entry, CTxMemPoolEntry.new]
  rw [hweight, hvirtual]
  simp

def pool : CTxMemPool :=
  alone (entry params nBlockMaxWeight n)
    ((env params nBlockMaxWeight).getTxSize (entry params nBlockMaxWeight n))

theorem legal_filler : AddLegal (empty ∅) (filler n) 0 ∅ where
  new := by simp [empty]
  notOwnParent := by simp [filler, CTransaction.prevouts]
  noChildren c e he := by cases he
  noConflict o _ := rfl
  sigOps := by decide
  ancestors a := by
    constructor
    · exact fun h => absurd h (not_mem_empty a)
    · rintro ⟨p, -, hp, -⟩
      exact absurd (AList.mem_keys.mpr hp) not_mem_nil

theorem good_pool :
    Good (env params nBlockMaxWeight).toMempoolEnv (pool params nBlockMaxWeight n) := by
  have hsize : 0 < (entry params nBlockMaxWeight n).nSizeWithAncestors := by
    rw [nSizeWithAncestors_entry]
    omega
  have hstate : (entry params nBlockMaxWeight n).updateAncestorState 0 0 0 0 =
      some (entry params nBlockMaxWeight n) := by
    have hsigOps : 0 ≤ toInt ((entry params nBlockMaxWeight n).nSigOpCostWithAncestors + 0) :=
      show 0 ≤ toInt 0 by decide
    have hcount : 0 < (entry params nBlockMaxWeight n).nCountWithAncestors + 0 := Int.one_pos
    rw [updateAncestorState, if_pos ⟨by omega, hcount, hsigOps⟩]
    simp
  have hlegal : MempoolEnv.Legal (empty ∅) (.addUnchecked (filler n) 0 0 0 ∅) := legal_filler n
  exact step_good (good_empty ∅) hlegal (addUnchecked_alone _ rfl hstate)

theorem lookup_pool (x : Uint256) : (pool params nBlockMaxWeight n).mapTx.lookup x =
    if x = 1 then some (entry params nBlockMaxWeight n) else none :=
  Maps.lookup_insertNew ∅ 1 x _

theorem entryWeights_pool : EntryWeights (pool params nBlockMaxWeight n) := by
  intro h e he
  rw [lookup_pool] at he
  split at he
  · obtain rfl := Option.some.inj he
    rfl
  · cases he

/-- What the first iteration evaluates. -/
def choice : PackageChoice := PackageState.fromMapTx 1 (entry params nBlockMaxWeight n)

theorem filler_mem
    (hfits : 4000 + getTransactionWeight (filler n) < configuredMaxWeight nBlockMaxWeight) :
    ∃ fuel s, ((env params nBlockMaxWeight).assembler true).addPackageTxs
        (pool params nBlockMaxWeight n) fuel = some s ∧ filler n ∈ s.block.vtx := by
  have hgood : Good ((env params nBlockMaxWeight).assembler true).toMempoolEnv
      (pool params nBlockMaxWeight n) := good_pool params nBlockMaxWeight n
  have hlookup : (pool params nBlockMaxWeight n).mapTx.lookup 1 =
      some (entry params nBlockMaxWeight n) := rfl
  have hturn : (PackageState.start ((env params nBlockMaxWeight).assembler true)
      (pool params nBlockMaxWeight n)).turn ((env params nBlockMaxWeight).assembler true)
        (pool params nBlockMaxWeight n) = some (.evaluate (choice params nBlockMaxWeight n) []) := rfl
  apply mem_vtx_of_first hgood (entryWeights_pool params nBlockMaxWeight n).weightsOk hlookup hturn
  · have hzero : ∀ size, (CFeeRate.mk 0).getFee size = 0 := by simp [CFeeRate.getFee]
    exact (hzero _).le
  · have hchosen : ∀ e : CTxMemPoolEntry, (PackageState.fromMapTx 1 e).packageSize =
        e.nSizeWithAncestors := fun _ => rfl
    have hsize : (choice params nBlockMaxWeight n).packageSize = 59 + getSizeOfCompactSize n + n := by
      rw [choice, hchosen, nSizeWithAncestors_entry]
    have hsigOps : (choice params nBlockMaxWeight n).packageSigOpsCost = 0 := rfl
    have hlimit : ((env params nBlockMaxWeight).assembler true).nBlockMaxWeight =
        configuredMaxWeight nBlockMaxWeight := rfl
    have hsigOpsLimit : (400 : Int) + 0 < MAX_BLOCK_SIGOPS_COST := by decide
    rw [weight_filler] at hfits
    rw [testPackage_eq_true, hsize, hsigOps, hlimit, WITNESS_SCALE_FACTOR]
    simp only [BlockAssembler.resetBlock]
    exact ⟨by omega, hsigOpsLimit⟩
  · intro A
    refine List.all_eq_true.mpr fun x _ => ?_
    rw [lookup_pool]
    split
    · rfl
    · rfl

theorem exists_mined {pool : CTxMemPool} (fuel : Nat) {s : PackageState} (hparams : params ≠ .regTest)
    (hgood : Good (env params nBlockMaxWeight).toMempoolEnv pool) (hweights : EntryWeights pool)
    (hs : ((env params nBlockMaxWeight).assembler true).addPackageTxs pool fuel = some s) :
    ∃ block, Mined params nBlockMaxWeight (env params nBlockMaxWeight) pool block ∧
      6360 + (s.block.vtx.map getTransactionWeight).sum ≤ getBlockWeight block := by
  let keyID : Uint160 := ⟨replicate 20 0, rfl⟩
  let scriptPubKeyIn := [OP_DUP, OP_HASH160] ++ pushVector keyID.data ++ [OP_EQUALVERIFY, OP_CHECKSIG]
  have hsubsidy : ∃ nSubsidy, getBlockSubsidyInt params.nSubsidyHalvingInterval 1 = some nSubsidy := by
    cases params with
    | regTest => exact absurd rfl hparams
    | main => exact ⟨_, rfl⟩
    | test => exact ⟨_, rfl⟩
  obtain ⟨nSubsidy, hsubsidy⟩ := hsubsidy
  obtain ⟨template, htemplate⟩ := createNewBlock_exists scriptPubKeyIn hs hsubsidy fun _ => rfl
  have hcompleted : CompletedBlock params template { template.block with
      nSolution := replicate params.equihash.solutionWidth 0 } := ⟨rfl, length_replicate⟩
  refine ⟨_, ⟨rfl, rfl, hgood, hweights, fuel, keyID, scriptPubKeyIn, true, template, rfl, htemplate,
    hcompleted⟩, ?_⟩
  obtain ⟨s', w, hs', hw, -, -, hweight⟩ := hcompleted.weight rfl htemplate
  obtain rfl := Option.some.inj (hs'.symm.trans hs)
  rw [hweight]
  obtain ⟨hcount, -⟩ := getSizeOfCompactSize_bounds template.block.vtx.length
  have hheader := solution_size hparams
  dsimp only
  omega

/-- Whatever the limit, some block exceeds it there: one with the coinbase alone where that is
    enough, or one filled with a single transaction. -/
theorem exists_exceeding (hparams : params ≠ .regTest) :
    ∃ pool block, Mined params nBlockMaxWeight (env params nBlockMaxWeight) pool block ∧
      configuredMaxWeight nBlockMaxWeight < getBlockWeight block := by
  by_cases hsmall : configuredMaxWeight nBlockMaxWeight < 6360
  · obtain ⟨block, hmined, hweight⟩ := exists_mined params nBlockMaxWeight 1 hparams (good_empty ∅)
      (fun h e he => by cases he) rfl
    exact ⟨_, block, hmined, by omega⟩
  · let n := (configuredMaxWeight nBlockMaxWeight - 4000) / 4 - 100
    have hn : n = (configuredMaxWeight nBlockMaxWeight - 4000) / 4 - 100 := rfl
    have hweight := weight_filler n
    obtain ⟨hmin, hmax⟩ := getSizeOfCompactSize_bounds n
    obtain ⟨fuel, s, hs, hmem⟩ := filler_mem params nBlockMaxWeight n (by omega)
    obtain ⟨block, hmined, hblock⟩ := exists_mined params nBlockMaxWeight fuel hparams
      (good_pool params nBlockMaxWeight n) (entryWeights_pool params nBlockMaxWeight n) hs
    have hmem' : getTransactionWeight (filler n) ∈ s.block.vtx.map getTransactionWeight :=
      mem_map_of_mem hmem
    have hsum := single_le_sum (fun w _ => Nat.zero_le w) _ hmem'
    exact ⟨_, block, hmined, by omega⟩

end

end FullTemplate

/-- A completed block is within the limit that was configured on the network whose solutions are
    short, and on the others when everything in the pool would fit; there no limit below 6360 is
    kept, and each is broken with some pool.  It is always within the limit of consensus. -/
theorem completed_weight_le (params : CChainParams) (nBlockMaxWeight : Nat) :
    (∀ env pool block, Mined params nBlockMaxWeight env pool block →
      (params = .regTest ∨ (completedBound params pool : Int) ≤ env.nBlockMaxWeight →
        (getBlockWeight block : Int) ≤ env.nBlockMaxWeight) ∧
      (params ≠ .regTest → env.nBlockMaxWeight < 6360 → env.nBlockMaxWeight < getBlockWeight block) ∧
      getBlockWeight block ≤ MAX_BLOCK_WEIGHT) ∧
    ((∀ env pool block, Mined params nBlockMaxWeight env pool block →
        (getBlockWeight block : Int) ≤ env.nBlockMaxWeight) ↔ params = .regTest) := by
  refine ⟨fun env pool block hmined => ⟨?_, fun hparams hlimit => ?_, hmined.weight_le_max⟩,
    fun h => ?_, ?_⟩
  · rintro (rfl | hpool)
    · exact hmined.weight_le_of_regTest
    · exact hmined.weight_le_of_pool hpool
  · have hle := hmined.le_weight hparams
    omega
  · by_contra hparams
    obtain ⟨pool, block, hmined, hlt⟩ := FullTemplate.exists_exceeding params nBlockMaxWeight hparams
    have hle := h _ pool block hmined
    rw [hmined.limit] at hle
    omega
  · rintro rfl env pool block hmined
    exact hmined.weight_le_of_regTest

open FullTemplate in
/-- On the main network a pool of one transaction of 999 bytes fits into 20000. -/
theorem completed_weight_le_filler :
    ∃ block, Mined .main 20000 (env .main 20000) (pool .main 20000 937) block ∧
      (getBlockWeight block : Int) ≤ 20000 := by
  obtain ⟨fuel, s, hs, -⟩ := filler_mem .main 20000 937 (by rw [weight_filler]; decide)
  obtain ⟨block, hmined, -⟩ := exists_mined .main 20000 fuel (by simp) (good_pool .main 20000 937)
    (entryWeights_pool .main 20000 937) hs
  have htxids : (pool .main 20000 937).txids = {1} := rfl
  have hweight : poolWeight (pool .main 20000 937) = getTransactionWeight (filler 937) := by
    rw [poolWeight, htxids, Finset.sum_singleton, lookup_pool, if_pos rfl]
    exact congrArg getTransactionWeight (show (entry .main 20000 937).tx = filler 937 from rfl)
  have hbound : completedBound .main (pool .main 20000 937) = 10428 := by
    have hwidth : CChainParams.main.equihash.solutionWidth = 1344 := by decide
    rw [completedBound, hweight, weight_filler, htxids, hwidth]
    simp [getSizeOfCompactSize]
  obtain ⟨hle, -⟩ := (completed_weight_le .main 20000).1 _ _ block hmined
  refine ⟨block, hmined, hle (.inr ?_)⟩
  rw [hbound]
  decide

/-- With the lowest limit, a block without transactions of the pool is too heavy. -/
theorem completed_weight_not_le : ¬ ∀ (params : CChainParams) (nBlockMaxWeight : Nat)
    (env : TemplateEnv) (pool : CTxMemPool) (block : CFullBlock),
      Mined params nBlockMaxWeight env pool block → (getBlockWeight block : Int) ≤ env.nBlockMaxWeight := by
  intro h
  obtain ⟨block, hmined, hweight⟩ := FullTemplate.exists_mined .main 4000 1 (by simp) (good_empty ∅)
    (fun h e he => by cases he) rfl
  have hle := h .main 4000 _ (empty ∅) block hmined
  have hlimit : configuredMaxWeight 4000 = 4000 := by decide
  rw [hmined.limit, hlimit] at hle
  omega

end Rcoin
