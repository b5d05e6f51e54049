import FpgaMiner.DisconnectBlockProofs
import Mathlib.Logic.Relation

/-! # The chain state

    A node keeps the view of the tip of its chain, on the disk or in memory, and for each block
    that was ever connected its undo information.  It connects blocks, disconnects them when a
    better chain is known, and writes coins to the disk in between.

    The two blocks of the main network that BIP 30 exempts are connected as any other.  They
    overwrite unspent transactions that no undo information brings back, so they are taken
    not to be disconnected again.

    * **`Reachable.disconnects`** — whatever it has done, any other tip can be disconnected,
      and its undo information fits;
    * **`Reachable.connects`** — whatever block comes next, no assertion fails on it;
    * **`Reachable.flushes`** — and every coin can be written and is read again. -/

namespace Chainstate

open MinerDriver BlockHeader Serialize Script Transaction Block Retarget Coins TrimmedList

/-! ## The system -/

section System

variable (env : Env) (K : KeyLibrary)

/-- The chain from its tip down to the block after the genesis block, the view of the tip, and
    the undo files.  An index is the block with those below it. -/
structure State where
  chainActive : List CBlock
  pcoinsTip : View
  undoFile : List CBlock → Option (List Byte)

/-- The hash of the tip. -/
def tipHash : List CBlock → Uint256
  | [] => env.hashGenesisBlock
  | block :: _ => block.GetHash

/-- The index of a block over a chain. -/
def indexOf (block : CBlock) (chain : List CBlock) : BlockIndex :=
  ⟨chain.length + 1, block.header.nTime, some block.GetHash, tipHash env chain⟩

/-- After the genesis block. -/
def State.init : State :=
  ⟨[], ⟨fun _ => none, env.hashGenesisBlock⟩, fun _ => none⟩

/-- Undo information is written when a block is connected for the first time. -/
def writeUndo (undoFile : List CBlock → Option (List Byte)) (chain : List CBlock)
    (blockundo : CBlockUndo) : List CBlock → Option (List Byte) :=
  if (undoFile chain).isSome then undoFile
  else fun index => if index = chain then some (CBlockUndo.Serialize K blockundo) else undoFile index

/-- `ReadFromDisk` -/
def readUndo (undoFile : List CBlock → Option (List Byte)) (chain : List CBlock) : Option CBlockUndo :=
  match undoFile chain with
  | none => none
  | some file => (CBlockUndo.Unserialize K file).map Prod.fst

/-- `BatchWriteCoins` and reading the coins again; the outer `none` is a failed assertion. -/
def flushCoins (c : CCoins) : Option (Option CCoins) :=
  if c.IsPruned then some none
  else
    match c.Serialize K with
    | none => none
    | some s => some ((CCoins.Unserialize K s).map Prod.fst)

/-- `Flush` of a cache with the coins of some transactions. -/
def Flushed (cacheCoins : Uint256 → Bool) (view view' : CoinsMap) : Prop :=
  ∀ txid,
    match view txid, cacheCoins txid with
    | some c, true => flushCoins K c = some (view' txid)
    | found, _ => view' txid = found

/-- What a node does to its chain.  Any block but the genesis block that `ConnectBlock` takes is
    connected, at a height that an `int` holds, the two that BIP 30 exempts included; these two
    alone are not disconnected. -/
inductive Step : State → State → Prop
  | connect {s : State} {now : Int} {block : CBlock} {view : View} {blockundo : CBlockUndo} :
      s.chainActive.length + 1 < 2 ^ 31 → block.GetHash ≠ env.hashGenesisBlock →
      ConnectBlock env now block (indexOf env block s.chainActive) s.pcoinsTip false
        = .ok (view, blockundo) →
      Step s ⟨block :: s.chainActive, view, writeUndo K s.undoFile (block :: s.chainActive) blockundo⟩
  | disconnect {s : State} {block : CBlock} {chain : List CBlock} {blockUndo : CBlockUndo} {view : View} :
      s.chainActive = block :: chain → fEnforceBIP30 (indexOf env block chain) = true →
      readUndo K s.undoFile s.chainActive = some blockUndo →
      DisconnectBlock block (indexOf env block chain) s.pcoinsTip blockUndo = some (view, true) →
      Step s ⟨chain, view, s.undoFile⟩
  | flush {s : State} {cacheCoins : Uint256 → Bool} {coins : CoinsMap} :
      Flushed K cacheCoins s.pcoinsTip.coins coins →
      Step s ⟨s.chainActive, ⟨coins, s.pcoinsTip.hashBlock⟩, s.undoFile⟩

/-- The states of a node, from the genesis block on. -/
def Reachable (s : State) : Prop := Relation.ReflTransGen (Step env K) (State.init env) s

end System

/-! ## What the disk can hold -/

/-- Coins that the disk can hold, in a whole view. -/
def StorableView (view : CoinsMap) : Prop := ∀ txid, Storable (unspent (view txid))

/-- No coins can be stored. -/
theorem storable_empty : Storable {} :=
  ⟨kept_empty, Nat.zero_le _, fun i h => absurd (lt_of_isAvailable h) (Nat.not_lt_zero i), by decide⟩

/-- What the disk can hold is well formed. -/
theorem StorableView.kept {view : CoinsMap} (h : StorableView view) : KeptView view :=
  fun txid => (h txid).kept

/-- Coins that count as spent are stored as none. -/
theorem storable_unspent {c : CCoins} (h : Storable c) : Storable (unspent (some c)) := by
  by_cases hp : c.IsPruned = true
  · rw [unspent_of_pruned hp]
    exact storable_empty
  · rw [unspent_some_of_not hp]
    exact h

/-- A view stays storable when storable coins are set in it. -/
theorem StorableView.setCoins {view : CoinsMap} (h : StorableView view) (txid : Uint256) {c : CCoins}
    (hc : Storable c) : StorableView (SetCoins view txid c) := by
  intro x
  by_cases hx : x = txid
  · rw [hx, SetCoins_self]
    exact storable_unspent hc
  · rw [SetCoins_of_ne c hx]
    exact h x

/-- Coins without an output that is spent are storable. -/
theorem without_storable {c : CCoins} (h : Storable c) {n : Nat} (hn : c.IsAvailable n = true) :
    Storable (c.without n) := by
  refine ⟨without_kept h.kept hn, ?_, ?_, h.nHeight⟩
  · have hle := (List.rdropWhile_prefix CTxOut.IsNull (c.vout.set n CTxOut.SetNull)).length_le
    rw [List.length_set] at hle
    exact Nat.le_trans hle h.length
  · intro i hi
    have hout := without_getD h.kept hn i
    rw [isAvailable_iff, hout] at hi
    rw [hout]
    split at hi
    · exact absurd isNull_SetNull hi
    · next hne =>
        rw [if_neg hne]
        exact h.out i (isAvailable_iff.mpr hi)

/-- The undo information of a spent output is storable. -/
theorem undoOf_storable {c : CCoins} (h : Storable c) {n : Nat} (hn : c.IsAvailable n = true) :
    StorableUndo (c.undoOf n) := by
  have hout := h.out n hn
  rw [CCoins.undoOf]
  split
  · exact ⟨hout, h.nHeight, fun hzero => absurd hzero (h.kept.height (vout_ne_nil hn))⟩
  · exact ⟨hout, Nat.two_pow_pos 31, fun _ => rfl⟩

/-- The coins of a valid transaction are storable: its outputs are no more and no longer than
    a block allows. -/
theorem ofTx_storable {tx : CTransaction} (h : Valid tx) {nHeight : Nat} (hheight : nHeight ≠ 0)
    (hlt : nHeight < 2 ^ 31) : Storable (CCoins.ofTx tx nHeight) := by
  have hfits := CheckTransaction_fits ((CheckTransaction_iff tx).mpr h)
  refine ⟨ofTx_kept h hheight, ?_, ?_, hlt⟩
  · have hle := (List.rdropWhile_prefix CTxOut.IsNull (tx.vout.map clearOut)).length_le
    rw [List.length_map] at hle
    exact Nat.le_trans hle hfits.vout
  · intro i hi
    rw [isAvailable_iff, ofTx_getD h] at hi
    rw [ofTx_getD h]
    have hlen : i < (tx.vout.map clearOut).length := by
      by_contra hge
      rw [getD_of_le (Nat.not_lt.mp hge)] at hi
      exact hi isNull_SetNull
    rw [getD_of_lt hlen, List.getElem_map, clearOut] at hi ⊢
    split at hi
    · exact absurd isNull_SetNull hi
    · next hspend =>
        rw [if_neg hspend]
        have hmem := List.getElem_mem (by rwa [List.length_map] at hlen : i < tx.vout.length)
        exact ⟨h.value _ hmem, hfits.scriptPubKey _ hmem⟩

/-- What the disk makes of storable coins can be stored again. -/
theorem storable_of_stored {c c' : CCoins} (h : Storable c) (hs : Stored c c') : Storable c' := by
  refine ⟨hs.kept h.kept, by rw [hs.vout]; exact h.length, ?_, by rw [hs.nHeight]; exact h.nHeight⟩
  intro i hi
  rw [hs.isAvailable] at hi
  rw [hs.vout]
  exact h.out i hi

/-- The disk gives no negative versions. -/
theorem diskVersion_nonneg (v : BitVec 32) : ¬ (diskVersion v).toInt < 0 := by
  rw [diskVersion]
  split
  · have hle : (v &&& 0x7f).toNat ≤ 127 := by
      rw [BitVec.toNat_and]
      exact Nat.and_le_right
    rw [BitVec.toInt_eq_toNat_cond, if_pos (by omega)]
    omega
  · assumption

/-- A version changes only the first time that it is stored. -/
theorem diskVersion_idem (v : BitVec 32) : diskVersion (diskVersion v) = diskVersion v :=
  if_neg (diskVersion_nonneg v)

/-- Storing once more is storing once. -/
theorem StoredVersion.disk {v v' : BitVec 32} (h : StoredVersion v v') : StoredVersion v (diskVersion v') := by
  right
  rcases h with rfl | rfl
  · rfl
  · exact diskVersion_idem v

/-- What the disk makes of undo information can be stored again. -/
theorem storableUndo_of_stored {u u' : CTxInUndo} (h : StorableUndo u) (hs : StoredUndo u u') :
    StorableUndo u' := by
  refine ⟨by rw [hs.txout]; exact h.txout, by rw [hs.nHeight]; exact h.nHeight, ?_⟩
  intro hzero
  have hu := h.nVersion (by rw [← hs.nHeight]; exact hzero)
  rcases hs.nVersion with hv | hv
  · rw [hv, hu]
  · rw [hv, hu]
    rfl

/-- Spending keeps a view storable, and so is the undo information. -/
theorem spendInputs_storable {view va : CoinsMap} {outs : List COutPoint} {us : List CTxInUndo}
    (h : StorableView view) (hspend : spendInputs view outs = some (va, us)) :
    StorableView va ∧ ∀ u ∈ us, StorableUndo u := by
  induction outs generalizing view us with
  | nil =>
      obtain ⟨rfl, rfl⟩ := Prod.mk.inj (Option.some.inj hspend)
      exact ⟨h, fun u hu => (List.not_mem_nil hu).elim⟩
  | cons o rest ih =>
      obtain ⟨us', hav, hrest, rfl⟩ := spendInputs_cons hspend
      have hc : Storable (coinsOf view o) := h o.hash
      obtain ⟨hva, hus⟩ := ih (h.setCoins o.hash (without_storable hc hav)) hrest
      exact ⟨hva, List.forall_mem_cons.mpr ⟨undoOf_storable hc hav, hus⟩⟩

/-- A valid transaction keeps a view storable; its undo information fits into a vector. -/
theorem UpdateCoins_storable {view view1 : CoinsMap} {tx : CTransaction} {nHeight : Nat}
    {txundo : CTxUndo} (h : StorableView view) (hv : Valid tx) (hheight : nHeight ≠ 0)
    (hlt : nHeight < 2 ^ 31) (hupdate : UpdateCoins view tx nHeight = some (view1, txundo)) :
    StorableView view1 ∧ txundo.length ≤ MAX_SIZE ∧ ∀ u ∈ txundo, StorableUndo u := by
  have hnew := ofTx_storable hv hheight hlt
  have hfits := CheckTransaction_fits ((CheckTransaction_iff tx).mpr hv)
  obtain ⟨va, rfl, ⟨-, rfl, rfl⟩ | ⟨-, hspend⟩⟩ := UpdateCoins_cases hupdate
  · exact ⟨h.setCoins _ hnew, Nat.zero_le _, fun u hu => (List.not_mem_nil hu).elim⟩
  · obtain ⟨hva, hus⟩ := spendInputs_storable h hspend
    refine ⟨hva.setCoins _ hnew, ?_, hus⟩
    rw [spendInputs_length hspend, List.length_map]
    exact hfits.vin

/-- An element on the right has one on the left. -/
theorem forall₂_mem_right {α β : Type} {R : α → β → Prop} {l : List α} {l' : List β}
    (h : List.Forall₂ R l l') {b : β} (hb : b ∈ l') : ∃ a ∈ l, R a b := by
  induction h with
  | nil => exact (List.not_mem_nil hb).elim
  | cons hab _ ih =>
      rcases List.mem_cons.mp hb with rfl | hb
      · exact ⟨_, List.mem_cons_self, hab⟩
      · obtain ⟨a, ha, hR⟩ := ih hb
        exact ⟨a, List.mem_cons_of_mem _ ha, hR⟩

/-- **The transactions of a block keep a view storable**, and there is undo information
    for each. -/
theorem UpdateAll_storable {view view2 : CoinsMap} {vtx : List CTransaction} {nHeight : Nat}
    {undos : List CTxUndo} (h : StorableView view) (hv : ∀ tx ∈ vtx, Valid tx) (hheight : nHeight ≠ 0)
    (hlt : nHeight < 2 ^ 31) (hall : UpdateAll nHeight view vtx = some (view2, undos)) :
    StorableView view2 ∧ undos.length = vtx.length
      ∧ ∀ txundo ∈ undos, txundo.length ≤ MAX_SIZE ∧ ∀ u ∈ txundo, StorableUndo u := by
  induction vtx generalizing view undos with
  | nil =>
      obtain ⟨rfl, rfl⟩ := Prod.mk.inj (Option.some.inj hall)
      exact ⟨h, rfl, fun u hu => (List.not_mem_nil hu).elim⟩
  | cons tx vtx ih =>
      obtain ⟨htx, hvtx⟩ := List.forall_mem_cons.mp hv
      obtain ⟨view1, txundo, undos', hupdate, hrest, rfl⟩ := UpdateAll_cons hall
      obtain ⟨h1, hundo⟩ := UpdateCoins_storable h htx hheight hlt hupdate
      obtain ⟨h2, hlen, hundos⟩ := ih h1 hvtx hrest
      exact ⟨h2, congrArg (· + 1) hlen, List.forall_mem_cons.mpr ⟨hundo, hundos⟩⟩

/-! ## The chain that a view is of -/

/-- A block takes the coins of a chain to others.  What it overwrites is spent, unless BIP 30
    exempts it. -/
structure Extends (env : Env) (chain : List CBlock) (view : CoinsMap) (block : CBlock)
    (view' : CoinsMap) (undos : List CTxUndo) : Prop where
  valid : Block.Valid block true
  fresh : fEnforceBIP30 (indexOf env block chain) = true →
    ∀ tx ∈ block.vtx, Fresh view tx.GetHash
  update : UpdateAll (chain.length + 1) view block.vtx = some (view', undos)
  coinbase : ∀ tx, block.vtx.head? = some tx →
    Transaction.total tx.vout
      ≤ GetBlockValue env (chain.length + 1) (totalFees (chain.length + 1) view block.vtx)

/-- Under BIP 30 the transactions of the block can be taken back. -/
theorem Extends.acceptable {env : Env} {chain : List CBlock} {view view' : CoinsMap} {block : CBlock}
    {undos : List CTxUndo} (h : Extends env chain view block view' undos)
    (h30 : fEnforceBIP30 (indexOf env block chain) = true) : Acceptable view block.vtx :=
  ⟨valid_transactions h.valid, h.fresh h30, h.valid.txids⟩

/-- The coins of a chain, from no coins on. -/
inductive Replay (env : Env) : List CBlock → CoinsMap → Prop
  | nil : Replay env [] (fun _ => none)
  | cons {chain : List CBlock} {view view' : CoinsMap} {block : CBlock} {undos : List CTxUndo} :
      Replay env chain view → Extends env chain view block view' undos →
      Replay env (block :: chain) view'

/-- **A chain has one view.** -/
theorem Replay.unique {env : Env} {chain : List CBlock} {view view' : CoinsMap}
    (h : Replay env chain view) (h' : Replay env chain view') : view = view' := by
  induction h generalizing view' with
  | nil =>
      cases h'
      rfl
  | cons hchain hext ih =>
      cases h' with
      | cons hchain' hext' =>
          obtain rfl := ih hchain'
          have hupdate := hext'.update
          rw [hext.update] at hupdate
          exact (Prod.mk.inj (Option.some.inj hupdate)).1

/-- The view of a chain can be stored. -/
theorem Replay.storable {env : Env} {chain : List CBlock} {view : CoinsMap} (h : Replay env chain view)
    (hlt : chain.length < 2 ^ 31) : StorableView view := by
  induction h with
  | nil => exact fun _ => storable_empty
  | @cons chain view view' block undos hchain hext ih =>
      rw [List.length_cons] at hlt
      exact (UpdateAll_storable (ih (Nat.lt_of_succ_lt hlt)) (valid_transactions hext.valid) (Nat.succ_ne_zero _)
        hlt hext.update).1

/-- The undo information that is kept for a block over a chain, in the file. -/
structure UndoOf (env : Env) (K : KeyLibrary) (block : CBlock) (chain : List CBlock)
    (file : List Byte) : Prop where
  undo : ∃ view view' undos undos', Replay env chain view
    ∧ Extends env chain view block view' undos
    ∧ List.Forall₂ (List.Forall₂ StoredUndo) undos undos'
    ∧ file = CBlockUndo.Serialize K (keptUndos block.vtx undos')
  height : chain.length + 1 < 2 ^ 31

/-- **The invariant**: the view is the one of the chain, up to the disk, and so is the undo
    information of every block that was connected. -/
structure Inv (env : Env) (K : KeyLibrary) (s : State) : Prop where
  view : ∃ view, Replay env s.chainActive view ∧ StoredView view s.pcoinsTip.coins
  hashBlock : s.pcoinsTip.hashBlock = tipHash env s.chainActive
  height : s.chainActive.length < 2 ^ 31
  there : ∀ chain, chain <:+ s.chainActive → chain ≠ [] → (s.undoFile chain).isSome = true
  undo : ∀ chain file, s.undoFile chain = some file →
    ∃ block rest, chain = block :: rest ∧ UndoOf env K block rest file

/-! ## One block -/

/-- The first transaction of a block is its coinbase. -/
theorem coinbase_first {block : CBlock} {fCheckMerkleRoot : Bool} (h : Block.Valid block fCheckMerkleRoot) :
    ∃ tx vtx, block.vtx = tx :: vtx ∧ tx.IsCoinBase = true ∧ ∀ t ∈ vtx, ¬ t.IsCoinBase = true := by
  obtain ⟨tx, vtx, hvtx⟩ := List.exists_cons_of_ne_nil h.vtx
  have hcoinbase := h.coinbase
  have hrest := h.rest
  rw [hvtx] at hcoinbase hrest
  refine ⟨tx, vtx, hvtx, hcoinbase, ?_⟩
  intro t ht hcb
  rw [List.tail_cons] at hrest
  exact absurd hrest (by rw [Bool.not_eq_false, List.any_eq_true]; exact ⟨t, ht, hcb⟩)

/-- Without coinbases all undo information is kept. -/
theorem keptUndos_rest {vtx : List CTransaction} {undos : List CTxUndo} (hlen : undos.length = vtx.length)
    (h : ∀ t ∈ vtx, ¬ t.IsCoinBase = true) : keptUndos vtx undos = undos := by
  have hall : (vtx.zip undos).filter (fun p => !p.1.IsCoinBase) = vtx.zip undos := by
    rw [List.filter_eq_self]
    rintro ⟨t, u⟩ hmem
    rw [Bool.not_eq_true _ |>.mp (h t (List.of_mem_zip hmem).1)]
    rfl
  rw [keptUndos, hall, ← List.unzip_snd, List.unzip_zip_right (Nat.le_of_eq hlen)]

/-- Without coinbases each transaction has its undo information. -/
theorem zip_undoFor {vtx : List CTransaction} (h : ∀ t ∈ vtx, ¬ t.IsCoinBase = true)
    (undos : List CTxUndo) :
    vtx.zip (undos.map some) = List.zipWith (fun tx u => (tx, undoFor tx u)) vtx undos := by
  induction vtx generalizing undos with
  | nil => rfl
  | cons t vtx ih =>
      obtain ⟨ht, hvtx⟩ := List.forall_mem_cons.mp h
      cases undos with
      | nil => rfl
      | cons u undos =>
          rw [List.map_cons, List.zip_cons_cons, List.zipWith_cons_cons, ih hvtx, undoFor, if_neg ht]

/-- For a block the undo information that is kept goes to the transactions it was for. -/
theorem withUndo_keptUndos {block : CBlock} {fCheckMerkleRoot : Bool}
    (h : Block.Valid block fCheckMerkleRoot) {undos : List CTxUndo}
    (hlen : undos.length = block.vtx.length) :
    withUndo block.vtx (keptUndos block.vtx undos)
        = List.zipWith (fun tx u => (tx, undoFor tx u)) block.vtx undos
      ∧ (keptUndos block.vtx undos).length + 1 = block.vtx.length := by
  obtain ⟨tx, vtx, hvtx, hcb, hrest⟩ := coinbase_first h
  rw [hvtx] at hlen ⊢
  cases undos with
  | nil => cases hlen
  | cons u us =>
      have hlen : us.length = vtx.length := Nat.succ.inj hlen
      have hkept : keptUndos (tx :: vtx) (u :: us) = us := by
        rw [keptUndos, List.zip_cons_cons, List.filter_cons, if_neg (by rw [hcb]; exact Bool.false_ne_true)]
        exact keptUndos_rest hlen hrest
      rw [hkept]
      refine ⟨?_, congrArg (· + 1) hlen⟩
      rw [withUndo, List.zip_cons_cons, List.zipWith_cons_cons, undoFor, if_pos hcb,
        zip_undoFor hrest]

/-- **A block is taken back.** -/
theorem DisconnectBlock_Extends {env : Env} {chain : List CBlock} {view view2 : CoinsMap} {block : CBlock}
    {undos undos' : List CTxUndo} {s : View} (hk : KeptView view)
    (hext : Extends env chain view block view2 undos)
    (h30 : fEnforceBIP30 (indexOf env block chain) = true) (hs : StoredView view2 s.coins)
    (hu : List.Forall₂ (List.Forall₂ StoredUndo) undos undos') (hhash : s.hashBlock = block.GetHash) :
    ∃ r, DisconnectBlock block (indexOf env block chain) s (keptUndos block.vtx undos')
        = some (⟨r, tipHash env chain⟩, true) ∧ StoredView view r := by
  have hlen : undos'.length = block.vtx.length := by
    rw [← hu.length_eq]
    exact UpdateAll_length hext.update
  obtain ⟨hundo, hcount⟩ := withUndo_keptUndos hext.valid hlen
  obtain ⟨r, hr, hview⟩ := disconnectTxs_UpdateAll hk (Nat.succ_ne_zero _) (hext.acceptable h30)
    hext.update hs hu
  refine ⟨r, ?_, hview⟩
  have hindex : (indexOf env block chain).phashBlock = some s.hashBlock := by
    rw [hhash]
    rfl
  rw [DisconnectBlock, if_neg (not_not.mpr hindex), if_neg (not_not.mpr hcount), hundo,
    show (indexOf env block chain).nHeight = chain.length + 1 from rfl, hr]
  rfl

/-- What is not found, or is pruned, has no output to spend. -/
theorem fresh_of_not_found {found : Option CCoins}
    (h : ¬ (found.isSome && !(found.getD {}).IsPruned) = true) : (unspent found).vout = [] := by
  cases found with
  | none => rfl
  | some c =>
      rw [Option.isSome_some, Bool.true_and, Option.getD_some, Bool.not_eq_true', Bool.not_eq_false] at h
      rw [unspent_of_pruned h]

/-- **What `ConnectBlock` takes extends the chain.** -/
theorem Extends_of_ConnectBlock {env : Env} {now : Int} {block : CBlock} {chain : List CBlock}
    {view : CoinsMap} {s s' : View} {blockundo : CBlockUndo}
    (hgenesis : block.GetHash ≠ env.hashGenesisBlock) (hs : StoredView view s.coins)
    (h : ConnectBlock env now block (indexOf env block chain) s false = .ok (s', blockundo)) :
    ∃ view2 undos undos', Extends env chain view block view2 undos
      ∧ StoredView view2 s'.coins ∧ List.Forall₂ (List.Forall₂ StoredUndo) undos undos'
      ∧ blockundo = keptUndos block.vtx undos' ∧ s'.hashBlock = block.GetHash := by
  rw [ConnectBlock] at h
  cases hcheck : CheckBlock env.params now block (!false) (!false) with
  | error r =>
      rw [hcheck] at h
      cases h
  | ok u =>
      rw [hcheck] at h
      have hblock : Block.Valid block true := valid_of_CheckBlock hcheck
      have hv := valid_transactions hblock
      simp only [if_neg hgenesis] at h
      split at h
      · cases h
      · split at h
        · cases h
        · next hbip30 =>
            obtain ⟨s2, htxs, h⟩ := bind_ok h
            obtain ⟨nValueOut, hout, h⟩ := bind_ok h
            split at h
            · cases h
            · next hamount =>
                split at h
                · cases h
                · rw [if_neg Bool.false_ne_true] at h
                  cases h
                  obtain ⟨view2, undos, undos', hall, hview2, hu, hundo, hfees⟩ :=
                    connectTxs_stored hs hv htxs
                  refine ⟨view2, undos, undos', ⟨hblock, ?_, hall, ?_⟩, hview2, hu, hundo, rfl⟩
                  · -- under BIP 30 what a transaction of the block overwrites is spent
                    intro h30 tx hmem
                    have hany := not_and.mp hbip30 h30
                    rw [List.any_eq_true, not_exists] at hany
                    have hnot := fun hx => hany tx.GetHash ⟨List.mem_map_of_mem hmem, hx⟩
                    rw [Fresh, ← (hs tx.GetHash).vout]
                    exact fresh_of_not_found hnot
                  · intro tx htx
                    have htotal := (hv tx (List.mem_of_head? htx)).GetValueOut
                    rw [htx, Option.bind_some, htotal] at hout
                    cases hout
                    rw [Int.zero_add] at hfees
                    rw [hfees] at hamount
                    exact Int.not_lt.mp hamount

/-! ## The invariant -/

/-- The genesis block leaves no coins and no undo information. -/
theorem inv_init (env : Env) (K : KeyLibrary) : Inv env K (State.init env) :=
  ⟨⟨_, Replay.nil, StoredView.refl _⟩, rfl, Nat.two_pow_pos 31,
    fun _ hsuffix hne => absurd (List.suffix_nil.mp hsuffix) hne, fun _ _ h => by cases h⟩

/-- What is kept does not look at the undo information itself. -/
theorem keptUndos_map (vtx : List CTransaction) (undos : List CTxUndo) (f : CTxUndo → CTxUndo) :
    (keptUndos vtx undos).map f = keptUndos vtx (undos.map f) := by
  rw [keptUndos, keptUndos, List.zip_map_right, List.filter_map, List.map_map, List.map_map]
  rfl

/-- Undo information that was stored is stored again as before. -/
theorem storedUndo_disk {u u' : CTxInUndo} (h : StoredUndo u u') : StoredUndo u (diskUndo u') :=
  ⟨h.txout, h.fCoinBase, h.nHeight, StoredVersion.disk h.nVersion⟩

/-- What is kept of undo information that the disk can hold, it can hold. -/
theorem storable_keptUndos {block : CBlock} {undos undos' : List CTxUndo}
    (hblock : Block.Valid block true)
    (hstorable : ∀ txundo ∈ undos, txundo.length ≤ MAX_SIZE ∧ ∀ u ∈ txundo, StorableUndo u)
    (hlen : undos.length = block.vtx.length) (hu : List.Forall₂ (List.Forall₂ StoredUndo) undos undos') :
    StorableBlockUndo (keptUndos block.vtx undos') := by
  have hstorable' : ∀ txundo' ∈ undos', txundo'.length ≤ MAX_SIZE ∧ ∀ u' ∈ txundo', StorableUndo u' := by
    intro txundo' hmem
    obtain ⟨txundo, hmem, htx⟩ := forall₂_mem_right hu hmem
    obtain ⟨hl, hs⟩ := hstorable txundo hmem
    refine ⟨by rw [← htx.length_eq]; exact hl, ?_⟩
    intro u' hu'
    obtain ⟨u, hmem, hstored⟩ := forall₂_mem_right htx hu'
    exact storableUndo_of_stored (hs u hmem) hstored
  refine ⟨?_, ?_⟩
  · have hmax : block.vtx.length ≤ MAX_SIZE := hblock.fits.2.1
    have hle := (withUndo_keptUndos hblock (hu.length_eq ▸ hlen)).2
    omega
  · intro txundo' hmem
    obtain ⟨p, hp, rfl⟩ := List.mem_map.mp hmem
    exact hstorable' p.2 (List.of_mem_zip (List.mem_of_mem_filter hp)).2

/-- **The undo information on the disk is what was kept.** -/
theorem readUndo_eq {env : Env} {K : KeyLibrary} {block : CBlock} {chain : List CBlock}
    {file : List Byte} (h : UndoOf env K block chain file)
    {undoFile : List CBlock → Option (List Byte)} (hfile : undoFile (block :: chain) = some file) :
    ∃ view view' undos undos', Replay env chain view
      ∧ Extends env chain view block view' undos
      ∧ List.Forall₂ (List.Forall₂ StoredUndo) undos undos'
      ∧ readUndo K undoFile (block :: chain) = some (keptUndos block.vtx undos') := by
  obtain ⟨⟨view, view', undos, undos', hreplay, hext, hu, rfl⟩, hlt⟩ := h
  obtain ⟨-, hlen, hstorable⟩ := UpdateAll_storable (hreplay.storable (Nat.lt_of_succ_lt hlt))
    (valid_transactions hext.valid) (Nat.succ_ne_zero _) hlt hext.update
  refine ⟨view, view', undos, undos'.map (List.map diskUndo), hreplay, hext, ?_, ?_⟩
  · rw [List.forall₂_map_right_iff]
    refine hu.imp ?_
    intro us us' hus
    rw [List.forall₂_map_right_iff]
    exact hus.imp fun _ _ hstored => storedUndo_disk hstored
  · have hread := CBlockUndo.Unserialize_Serialize K
      (storable_keptUndos hext.valid hstorable hlen hu) []
    rw [List.append_nil] at hread
    rw [readUndo, hfile]
    simp only [hread, Option.map_some, diskBlockUndo, keptUndos_map]

/-- Connecting keeps the invariant. -/
theorem Inv.connect {env : Env} {K : KeyLibrary} {s : State} {now : Int} {block : CBlock} {view : View}
    {blockundo : CBlockUndo} (h : Inv env K s) (hheight : s.chainActive.length + 1 < 2 ^ 31)
    (hgenesis : block.GetHash ≠ env.hashGenesisBlock)
    (hconnect : ConnectBlock env now block (indexOf env block s.chainActive) s.pcoinsTip false
      = .ok (view, blockundo)) :
    Inv env K ⟨block :: s.chainActive, view,
      writeUndo K s.undoFile (block :: s.chainActive) blockundo⟩ := by
  obtain ⟨view1, hreplay, hs⟩ := h.view
  obtain ⟨view2, undos, undos', hext, hview2, hu, rfl, hhash⟩ :=
    Extends_of_ConnectBlock hgenesis hs hconnect
  have hundo : UndoOf env K block s.chainActive (CBlockUndo.Serialize K (keptUndos block.vtx undos')) :=
    ⟨⟨view1, view2, undos, undos', hreplay, hext, hu, rfl⟩, hheight⟩
  refine ⟨⟨view2, Replay.cons hreplay hext, hview2⟩, hhash, hheight, ?_, ?_⟩
  · intro chain hsuffix hne
    have hold : chain ≠ block :: s.chainActive → (s.undoFile chain).isSome = true := by
      intro hother
      exact h.there chain ((List.suffix_cons_iff.mp hsuffix).resolve_left hother) hne
    rw [writeUndo]
    split
    · next hthere =>
        by_cases hchain : chain = block :: s.chainActive
        · rw [hchain]
          exact hthere
        · exact hold hchain
    · show (if chain = block :: s.chainActive then some _ else s.undoFile chain).isSome = true
      split
      · rfl
      · next hchain => exact hold hchain
  · intro chain file hfile
    rw [writeUndo] at hfile
    split at hfile
    · exact h.undo chain file hfile
    · simp only at hfile
      split at hfile
      · next hchain =>
          cases hfile
          exact ⟨block, s.chainActive, hchain, hundo⟩
      · exact h.undo chain file hfile

/-- **The tip can be disconnected.** -/
theorem Inv.DisconnectBlock_eq {env : Env} {K : KeyLibrary} {s : State} (h : Inv env K s)
    {block : CBlock} {chain : List CBlock} (htip : s.chainActive = block :: chain)
    (h30 : fEnforceBIP30 (indexOf env block chain) = true) :
    ∃ blockUndo view r, readUndo K s.undoFile s.chainActive = some blockUndo ∧ Replay env chain view
      ∧ DisconnectBlock block (indexOf env block chain) s.pcoinsTip blockUndo
        = some (⟨r, tipHash env chain⟩, true) ∧ StoredView view r := by
  obtain ⟨file, hfile⟩ := Option.isSome_iff_exists.mp
    (h.there s.chainActive (List.suffix_refl _) (by rw [htip]; exact List.cons_ne_nil _ _))
  obtain ⟨block', chain', heq, hundo⟩ := h.undo _ _ hfile
  rw [htip] at heq hfile
  obtain ⟨rfl, rfl⟩ := List.cons.inj heq
  obtain ⟨view, view', undos, undos', hreplay, hext, hu, hread⟩ := readUndo_eq hundo hfile
  obtain ⟨view2, hreplay2, hs⟩ := h.view
  rw [htip] at hreplay2
  obtain rfl := (Replay.cons hreplay hext).unique hreplay2
  have hk := (hreplay.storable (Nat.lt_of_succ_lt hundo.height)).kept
  have hhash : s.pcoinsTip.hashBlock = block.GetHash := by
    rw [h.hashBlock, htip]
    rfl
  obtain ⟨r, hr, hview⟩ := DisconnectBlock_Extends hk hext h30 hs hu hhash
  rw [htip]
  exact ⟨_, view, r, hread, hreplay, hr, hview⟩

/-- Disconnecting keeps the invariant: the view is that of the chain below the tip. -/
theorem Inv.disconnect {env : Env} {K : KeyLibrary} {s : State} (h : Inv env K s) {block : CBlock}
    {chain : List CBlock} {blockUndo : CBlockUndo} {view : View}
    (htip : s.chainActive = block :: chain) (h30 : fEnforceBIP30 (indexOf env block chain) = true)
    (hread : readUndo K s.undoFile s.chainActive = some blockUndo)
    (hdisconnect : DisconnectBlock block (indexOf env block chain) s.pcoinsTip blockUndo
      = some (view, true)) : Inv env K ⟨chain, view, s.undoFile⟩ := by
  obtain ⟨blockUndo', view0, r, hread', hreplay, hr, hview⟩ := h.DisconnectBlock_eq htip h30
  rw [hread] at hread'
  obtain rfl := Option.some.inj hread'
  rw [hdisconnect] at hr
  obtain ⟨rfl, -⟩ := Prod.mk.inj (Option.some.inj hr)
  have hsuffix : chain <:+ s.chainActive := by
    rw [htip]
    exact List.suffix_cons block chain
  have hheight := h.height
  rw [htip, List.length_cons] at hheight
  exact ⟨⟨view0, hreplay, hview⟩, rfl, Nat.lt_of_succ_lt hheight,
    fun c hc hne => h.there c (hc.trans hsuffix) hne, h.undo⟩

/-- Kept coins are written and read again. -/
theorem flushCoins_eq {K : KeyLibrary} {c : CCoins} (h : Storable (unspent (some c))) :
    flushCoins K c = some (if c.IsPruned then none else some (diskCoins c)) := by
  rw [flushCoins]
  by_cases hp : c.IsPruned = true
  · rw [if_pos hp, if_pos hp]
  · rw [if_neg hp, if_neg hp]
    rw [unspent_some_of_not hp] at h
    obtain ⟨s, hs, hread⟩ := CCoins.Unserialize_Serialize K h
      (fun hnil => hp ((isPruned_iff h.kept).mpr hnil)) []
    rw [List.append_nil] at hread
    rw [hs]
    simp only [hread, Option.map_some]

/-- The view of the tip can be stored. -/
theorem Inv.storable {env : Env} {K : KeyLibrary} {s : State} (h : Inv env K s) :
    StorableView s.pcoinsTip.coins := by
  obtain ⟨view, hreplay, hs⟩ := h.view
  exact fun txid => storable_of_stored (hreplay.storable h.height txid) (hs txid)

/-- A flush keeps the invariant: the view is the same up to the disk. -/
theorem Inv.flush {env : Env} {K : KeyLibrary} {s : State} (h : Inv env K s)
    {cacheCoins : Uint256 → Bool} {coins : CoinsMap} (hflush : Flushed K cacheCoins s.pcoinsTip.coins coins) :
    Inv env K ⟨s.chainActive, ⟨coins, s.pcoinsTip.hashBlock⟩, s.undoFile⟩ := by
  obtain ⟨view, hreplay, hs⟩ := h.view
  refine ⟨⟨view, hreplay, ?_⟩, h.hashBlock, h.height, h.there, h.undo⟩
  intro txid
  have hstored := hs txid
  have hstorable := h.storable txid
  have hone := hflush txid
  show Stored _ (unspent (coins txid))
  cases hfound : s.pcoinsTip.coins txid with
  | none =>
      rw [hfound] at hone hstored
      rw [show coins txid = none from hone]
      exact hstored
  | some c =>
      rw [hfound] at hone hstored hstorable
      cases hcache : cacheCoins txid with
      | false =>
          rw [hcache] at hone
          rw [show coins txid = some c from hone]
          exact hstored
      | true =>
          rw [hcache] at hone
          have hone : flushCoins K c = some (coins txid) := hone
          rw [flushCoins_eq hstorable] at hone
          rw [← Option.some.inj hone]
          by_cases hp : c.IsPruned = true
          · rw [if_pos hp]
            rw [unspent_of_pruned hp] at hstored
            exact hstored
          · have hdisk : ¬ (diskCoins c).IsPruned = true := hp
            rw [unspent_some_of_not hp] at hstored
            rw [if_neg hp, unspent_some_of_not hdisk]
            exact ⟨hstored.fCoinBase, hstored.vout, hstored.nHeight, StoredVersion.disk hstored.nVersion⟩

/-- **The invariant holds in every run.** -/
theorem Reachable.inv {env : Env} {K : KeyLibrary} {s : State} (h : Reachable env K s) : Inv env K s := by
  induction h with
  | refl => exact inv_init env K
  | tail _ hstep ih =>
      cases hstep with
      | connect hheight hgenesis hconnect => exact ih.connect hheight hgenesis hconnect
      | disconnect htip h30 hread hdisconnect => exact ih.disconnect htip h30 hread hdisconnect
      | flush hflush => exact ih.flush hflush

/-! ## The first blocks of the main network -/

/-- A block with nothing but a coinbase that asks for no fees is connected. -/
theorem ConnectBlock_single {env : Env} {now : Int} {block : CBlock} {tx : CTransaction}
    {chain : List CBlock} {view : View} {nValue : Int} (hvtx : block.vtx = [tx])
    (hcheck : CheckBlock env.params now block true true = .ok ())
    (hgenesis : block.GetHash ≠ env.hashGenesisBlock) (hprev : tipHash env chain = view.hashBlock)
    (hfresh : ((view.coins tx.GetHash).getD {}).IsPruned = true) (hcoinbase : tx.IsCoinBase = true)
    (hsigops : GetLegacySigOpCount tx ≤ MAX_BLOCK_SIGOPS) (hvalue : tx.GetValueOut = some nValue)
    (hsubsidy : nValue ≤ GetBlockValue env (chain.length + 1) 0) :
    ConnectBlock env now block (indexOf env block chain) view false
      = .ok (⟨SetCoins view.coins tx.GetHash (CCoins.ofTx tx (chain.length + 1)), block.GetHash⟩,
        []) := by
  have hids : block.txids = [tx.GetHash] := congrArg (List.map CTransaction.GetHash) hvtx
  have hbip30 : ¬ (fEnforceBIP30 (indexOf env block chain) = true ∧ block.txids.any (fun hash =>
      (view.coins hash).isSome && !((view.coins hash).getD {}).IsPruned) = true) := by
    rintro ⟨-, h⟩
    rw [hids, List.any_cons, List.any_nil, hfresh, Bool.not_true, Bool.and_false, Bool.or_false] at h
    exact Bool.false_ne_true h
  have hcount : ¬ 0 + GetLegacySigOpCount tx > MAX_BLOCK_SIGOPS := by omega
  have htxs : ∀ fStrict, connectTxs env (indexOf env block chain) fStrict { view := view.coins } [tx]
      = .ok { view := SetCoins view.coins tx.GetHash (CCoins.ofTx tx (chain.length + 1)),
              nSigOps := 0 + GetLegacySigOpCount tx } := by
    intro fStrict
    rw [connectTxs, connectTx, beforeUpdate]
    simp only [if_neg hcount, hcoinbase, if_true, UpdateCoins]
    rfl
  have hassert : ¬ (indexOf env block chain).hashPrev ≠ view.hashBlock := not_not.mpr hprev
  have hhead : [tx].head?.bind CTransaction.GetValueOut = some nValue := hvalue
  rw [ConnectBlock, show CheckBlock env.params now block (!false) (!false) = .ok () from hcheck]
  simp only [if_neg hgenesis]
  rw [if_neg hassert, if_neg hbip30, hvtx, htxs, hhead]
  show (if nValue > GetBlockValue env (chain.length + 1) 0 then _ else _) = _
  rw [if_neg (Int.not_lt.mpr hsubsidy)]
  rfl

/-- Such a block is disconnected again. -/
theorem DisconnectBlock_single {env : Env} {block : CBlock} {tx : CTransaction} {chain : List CBlock}
    {view : View} (hvtx : block.vtx = [tx]) (hhash : view.hashBlock = block.GetHash)
    (hcoins : view.coins tx.GetHash = some (CCoins.ofTx tx (chain.length + 1)))
    (hversion : ¬ (CCoins.ofTx tx (chain.length + 1)).nVersion.toInt < 0)
    (hsame : (CCoins.ofTx tx (chain.length + 1)).ClearUnspendable.same
      (CCoins.ofTx tx (chain.length + 1)) = true) :
    DisconnectBlock block (indexOf env block chain) view []
      = some (⟨SetCoins view.coins tx.GetHash {}, tipHash env chain⟩, true) := by
  have hremove : removeOutputs (chain.length + 1) view.coins tx
      = (SetCoins view.coins tx.GetHash {}, true) := by
    simp only [removeOutputs, hcoins, Option.getD_some, Option.isSome_some, if_true, if_neg hversion,
      hsame]
  have htip : ¬ (indexOf env block chain).phashBlock ≠ some view.hashBlock := by
    rw [hhash]
    exact not_not.mpr rfl
  rw [DisconnectBlock, if_neg htip, hvtx, if_neg (by exact not_not.mpr rfl)]
  show (disconnectTxs (chain.length + 1) view.coins [(tx, none)]).map _ = _
  simp only [disconnectTxs, disconnectTx, hremove]
  rfl

/-- The main network; no script of its first blocks is verified. -/
def mainEnv : Env where
  params := mainNet
  hashGenesisBlock := genesis.GetHash
  nSubsidyHalvingInterval := 210000
  nTotalBlocksEstimate := 279000
  fScriptCheckThreads := true
  VerifyScript := fun _ _ _ _ _ => false

/-- The key in the block after the genesis block. -/
def oneKey : List Byte :=
  ofHex 65 0x0496b538e853519c726a2c91e61ec11600ae1390813a627c66fb8be7947be63c52da7589379515d4e0a604f8141781e62294721166bf621e73a82cbf2342c858ee

/-- The key in the second one. -/
def twoKey : List Byte :=
  ofHex 65 0x047211a824f55b505228e4c3d5194c1fcfaa15a456abdf37f9b9d97a4040afc073dee6c89064984f03385237d92167c13e236446b417ab79a0fcae412ae3316b77

/-- The coinbase of the block after the genesis block. -/
def oneTx : CTransaction where
  nVersion := 1
  vin := [⟨⟨0, -1⟩, push_uint64 486604799 ++ pushData [4], -1⟩]
  vout := [⟨50 * COIN, pushData oneKey ++ ofHex 1 OP_CHECKSIG⟩]
  nLockTime := 0

/-- The coinbase of the second one. -/
def twoTx : CTransaction where
  nVersion := 1
  vin := [⟨⟨0, -1⟩, push_uint64 486604799 ++ pushData [11], -1⟩]
  vout := [⟨50 * COIN, pushData twoKey ++ ofHex 1 OP_CHECKSIG⟩]
  nLockTime := 0

/-- The block after the genesis block. -/
def blockOne : CBlock where
  header := ⟨1, 0x000000000019d6689c085ae165831e934ff763ae46a2a6c172b3f1b60a8ce26f,
    0x0e3e2357e806b6cdb1f70b54c3a3a17b6714ee1f0e68bebb44a74b1efd512098, 1231469665, 0x1d00ffff,
    2573394689⟩
  vtx := [oneTx]

/-- The second one. -/
def blockTwo : CBlock where
  header := ⟨1, 0x00000000839a8e6886ab5951d76f411475428afc90947ee320161bbf18eb6048,
    0x9b0fc92260312ce44e74ef369f5c66bbb85848f2eddd5a7a1cde251e54ccfdd5, 1231469744, 0x1d00ffff,
    1639830024⟩
  vtx := [twoTx]

/-- The hashes of the coinbases, which are the Merkle roots. -/
theorem oneTx_GetHash : oneTx.GetHash
    = 0x0e3e2357e806b6cdb1f70b54c3a3a17b6714ee1f0e68bebb44a74b1efd512098 := by
  rw [CTransaction.GetHash, Hash_eq_window]
  decide +kernel

/-- The hash of its coinbase. -/
theorem twoTx_GetHash : twoTx.GetHash
    = 0x9b0fc92260312ce44e74ef369f5c66bbb85848f2eddd5a7a1cde251e54ccfdd5 := by
  rw [CTransaction.GetHash, Hash_eq_window]
  decide +kernel

/-- The hashes of the blocks, which are below the target. -/
theorem blockOne_GetHash : blockOne.GetHash
    = 0x00000000839a8e6886ab5951d76f411475428afc90947ee320161bbf18eb6048 := by
  rw [CBlock.GetHash, CBlockHeader.GetHash, Hash_eq_window]
  decide +kernel

/-- The hash of the second block. -/
theorem blockTwo_GetHash : blockTwo.GetHash
    = 0x000000006a625f06636b8bb6ac7b960a8d03705d1ace08b1a19da3fdcc99ddbd := by
  rw [CBlock.GetHash, CBlockHeader.GetHash, Hash_eq_window]
  decide +kernel

/-- They are not the genesis block. -/
theorem blockOne_new : blockOne.GetHash ≠ mainEnv.hashGenesisBlock := by
  show blockOne.GetHash ≠ genesis.GetHash
  rw [blockOne_GetHash, genesis_GetHash]
  decide

/-- Nor is the second one. -/
theorem blockTwo_new : blockTwo.GetHash ≠ mainEnv.hashGenesisBlock := by
  show blockTwo.GetHash ≠ genesis.GetHash
  rw [blockTwo_GetHash, genesis_GetHash]
  decide

/-- They pass all checks that need nothing but the block. -/
theorem CheckBlock_blockOne : CheckBlock mainNet 1231469665 blockOne true true = .ok () := by
  have hpow : CheckProofOfWork mainNet blockOne.GetHash blockOne.header.nBits = true := by
    rw [blockOne_GetHash]
    decide +kernel
  exact CheckBlock_single rfl (by decide +kernel) hpow (by decide) (by decide) (by decide +kernel)
    (by decide +kernel) oneTx_GetHash.symm

/-- The second one passes them too. -/
theorem CheckBlock_blockTwo : CheckBlock mainNet 1231469744 blockTwo true true = .ok () := by
  have hpow : CheckProofOfWork mainNet blockTwo.GetHash blockTwo.header.nBits = true := by
    rw [blockTwo_GetHash]
    decide +kernel
  exact CheckBlock_single rfl (by decide +kernel) hpow (by decide) (by decide) (by decide +kernel)
    (by decide +kernel) twoTx_GetHash.symm

/-- The first adds its coinbase to the empty view. -/
theorem ConnectBlock_blockOne :
    ConnectBlock mainEnv 1231469665 blockOne (indexOf mainEnv blockOne []) (State.init mainEnv).pcoinsTip
      false
    = .ok (⟨SetCoins (fun _ => none) oneTx.GetHash (CCoins.ofTx oneTx 1), blockOne.GetHash⟩, []) :=
  ConnectBlock_single rfl CheckBlock_blockOne blockOne_new rfl rfl (by decide) (by decide +kernel)
    (show oneTx.GetValueOut = some 5000000000 by decide +kernel) (by decide)

/-- The second adds its own to a view without it. -/
theorem ConnectBlock_blockTwo {view : View} (hhash : blockOne.GetHash = view.hashBlock)
    (hfresh : ((view.coins twoTx.GetHash).getD {}).IsPruned = true) :
    ConnectBlock mainEnv 1231469744 blockTwo (indexOf mainEnv blockTwo [blockOne]) view false
      = .ok (⟨SetCoins view.coins twoTx.GetHash (CCoins.ofTx twoTx 2), blockTwo.GetHash⟩, []) :=
  ConnectBlock_single rfl CheckBlock_blockTwo blockTwo_new hhash hfresh (by decide)
    (by decide +kernel) (show twoTx.GetValueOut = some 5000000000 by decide +kernel) (by decide)

/-- A key with the first coordinate and the parity of the second. -/
def compressed (key : List Byte) : List Byte :=
  (2 + ((key.drop 33).getD 31 0 &&& 1)) :: (key.drop 1).take 32

/-- The keys of the two blocks. -/
def firstKeys : List (List Byte) := [oneKey, twoKey]

/-- A library that knows no other keys. -/
def firstKeyLibrary : KeyLibrary where
  IsFullyValid := fun key => key ∈ firstKeys
  Decompress := fun short => firstKeys.find? (fun key => compressed key = short)
  decompress_of_valid := by
    intro x y hx _ hvalid
    have hkey : 4 :: (x ++ y) ∈ firstKeys := of_decide_eq_true hvalid
    have hshort : (2 + (y.getD 31 0 &&& 1)) :: x = compressed (4 :: (x ++ y)) := by
      rw [compressed, List.drop_succ_cons, List.drop_left' hx, List.drop_one, List.tail_cons,
        List.take_left' hx]
    have hall : ∀ key ∈ firstKeys,
        firstKeys.find? (fun k => compressed k = compressed key) = some key := by
      decide +kernel
    rw [hshort]
    exact hall _ hkey

/-! ## A run of a node

    It connects the two blocks and writes the coins to the disk in between, disconnects the second
    one and connects it again.  A coinbase is spent a hundred blocks later at the earliest, so
    no input is. -/

/-- The state after the first block. -/
def State.one : State where
  chainActive := [blockOne]
  pcoinsTip := ⟨SetCoins (fun _ => none) oneTx.GetHash (CCoins.ofTx oneTx 1), blockOne.GetHash⟩
  undoFile := writeUndo firstKeyLibrary (fun _ => none) [blockOne] []

/-- After the second one. -/
def State.two : State where
  chainActive := [blockTwo, blockOne]
  pcoinsTip := ⟨SetCoins State.one.pcoinsTip.coins twoTx.GetHash (CCoins.ofTx twoTx 2),
    blockTwo.GetHash⟩
  undoFile := writeUndo firstKeyLibrary State.one.undoFile [blockTwo, blockOne] []

/-- After the second one was disconnected. -/
def State.back : State where
  chainActive := [blockOne]
  pcoinsTip := ⟨SetCoins State.two.pcoinsTip.coins twoTx.GetHash {}, blockOne.GetHash⟩
  undoFile := State.two.undoFile

/-- After it was connected again. -/
def State.again : State where
  chainActive := [blockTwo, blockOne]
  pcoinsTip := ⟨SetCoins State.back.pcoinsTip.coins twoTx.GetHash (CCoins.ofTx twoTx 2),
    blockTwo.GetHash⟩
  undoFile := State.two.undoFile

/-- The coinbases are different transactions. -/
theorem twoTx_ne_oneTx : twoTx.GetHash ≠ oneTx.GetHash := by
  rw [twoTx_GetHash, oneTx_GetHash]
  decide

/-- What each step does to the coins. -/
theorem State.one_coins : State.one.pcoinsTip.coins
    = SetCoins (fun _ => none) oneTx.GetHash (CCoins.ofTx oneTx 1) := rfl

/-- The second block adds its coinbase. -/
theorem State.two_coins : State.two.pcoinsTip.coins
    = SetCoins State.one.pcoinsTip.coins twoTx.GetHash (CCoins.ofTx twoTx 2) := rfl

/-- Disconnecting it leaves coins without an output. -/
theorem State.back_coins : State.back.pcoinsTip.coins
    = SetCoins State.two.pcoinsTip.coins twoTx.GetHash {} := rfl

/-- Connecting it again puts the coinbase there. -/
theorem State.again_coins : State.again.pcoinsTip.coins
    = SetCoins State.back.pcoinsTip.coins twoTx.GetHash (CCoins.ofTx twoTx 2) := rfl

/-- A node can have connected the first block. -/
theorem reachable_one : Reachable mainEnv firstKeyLibrary State.one :=
  Relation.ReflTransGen.single (Step.connect (by decide) blockOne_new ConnectBlock_blockOne)

/-- The coins of the first block are what the disk makes of them. -/
theorem flushed_one : Flushed firstKeyLibrary (fun _ => true) State.one.pcoinsTip.coins
    State.one.pcoinsTip.coins := by
  intro txid
  by_cases h : txid = oneTx.GetHash
  · have hstorable := reachable_one.inv.storable txid
    have hfound : State.one.pcoinsTip.coins txid = some (CCoins.ofTx oneTx 1) := by
      rw [State.one_coins, h, SetCoins_self]
    rw [hfound] at hstorable
    simp only [hfound]
    rw [flushCoins_eq hstorable, if_neg (by decide)]
    rfl
  · have hnone : State.one.pcoinsTip.coins txid = none := by
      rw [State.one_coins, SetCoins_of_ne _ h]
    simp only [hnone]

/-- Then, after a flush, the second one. -/
theorem reachable_two : Reachable mainEnv firstKeyLibrary State.two := by
  have hfresh : ((State.one.pcoinsTip.coins twoTx.GetHash).getD {}).IsPruned = true := by
    rw [State.one_coins, SetCoins_of_ne _ twoTx_ne_oneTx]
    rfl
  have hflushed : Step mainEnv firstKeyLibrary State.one State.one := Step.flush flushed_one
  exact (reachable_one.tail hflushed).tail
    (Step.connect (by decide) blockTwo_new (ConnectBlock_blockTwo rfl hfresh))

/-- The undo information of the second block, which has none but the coinbase. -/
theorem readUndo_two : readUndo firstKeyLibrary State.two.undoFile State.two.chainActive
    = some [] := by
  have hnew : State.one.undoFile [blockTwo, blockOne] = none := by
    show writeUndo firstKeyLibrary (fun _ => none) [blockOne] [] [blockTwo, blockOne] = none
    rw [writeUndo, if_neg (by exact Bool.false_ne_true)]
    exact if_neg (fun h => absurd (congrArg List.length h) (by decide))
  have hfile : State.two.undoFile State.two.chainActive
      = some (CBlockUndo.Serialize firstKeyLibrary []) := by
    show writeUndo firstKeyLibrary State.one.undoFile [blockTwo, blockOne] [] [blockTwo, blockOne] = _
    rw [writeUndo, hnew, if_neg (by exact Bool.false_ne_true), if_pos rfl]
  rw [readUndo, hfile]
  rfl

/-- It can have disconnected it. -/
theorem reachable_back : Reachable mainEnv firstKeyLibrary State.back := by
  have hdisconnect : DisconnectBlock blockTwo (indexOf mainEnv blockTwo [blockOne])
      State.two.pcoinsTip [] = some (State.back.pcoinsTip, true) := by
    have hcoins : State.two.pcoinsTip.coins twoTx.GetHash = some (CCoins.ofTx twoTx 2) := by
      rw [State.two_coins, SetCoins_self]
    exact DisconnectBlock_single rfl rfl hcoins (by decide) (by decide +kernel)
  exact reachable_two.tail (Step.disconnect rfl (by rfl) readUndo_two hdisconnect)

/-- Its undo information is not written a second time. -/
theorem reachable_again : Reachable mainEnv firstKeyLibrary State.again := by
  have hfresh : ((State.back.pcoinsTip.coins twoTx.GetHash).getD {}).IsPruned = true := by
    rw [State.back_coins, SetCoins_self]
    rfl
  have hundo : writeUndo firstKeyLibrary State.back.undoFile (blockTwo :: State.back.chainActive) []
      = State.two.undoFile := by
    refine if_pos ?_
    have hread := readUndo_two
    rw [readUndo] at hread
    cases hfile : State.two.undoFile State.two.chainActive with
    | none =>
        rw [hfile] at hread
        cases hread
    | some file =>
        exact congrArg Option.isSome hfile
  have hstep := Step.connect (K := firstKeyLibrary) (s := State.back) (by decide) blockTwo_new
    (ConnectBlock_blockTwo rfl hfresh)
  rw [hundo] at hstep
  exact reachable_back.tail hstep

/-! ## What holds of every state -/

/-- **The tip can be disconnected** with the undo information on the disk, and nothing is found
    that should not be there; the two blocks that BIP 30 exempts are left out. -/
theorem Reachable.disconnects {env : Env} {K : KeyLibrary} {s : State} (h : Reachable env K s)
    {block : CBlock} {chain : List CBlock} (htip : s.chainActive = block :: chain)
    (h30 : fEnforceBIP30 (indexOf env block chain) = true) :
    ∃ blockUndo view, readUndo K s.undoFile s.chainActive = some blockUndo
      ∧ DisconnectBlock block (indexOf env block chain) s.pcoinsTip blockUndo = some (view, true) := by
  obtain ⟨blockUndo, -, r, hread, -, hr, -⟩ := h.inv.DisconnectBlock_eq htip h30
  exact ⟨blockUndo, _, hread, hr⟩

theorem Reachable.disconnects_again :
    ∃ blockUndo view, readUndo firstKeyLibrary State.again.undoFile State.again.chainActive
        = some blockUndo
      ∧ DisconnectBlock blockTwo (indexOf mainEnv blockTwo [blockOne]) State.again.pcoinsTip blockUndo
        = some (view, true) :=
  Reachable.disconnects reachable_again rfl (by rfl)

/-- **A block is taken or refused**, whatever it has in it. -/
theorem Reachable.connects {env : Env} {K : KeyLibrary} {s : State} (h : Reachable env K s) (now : Int)
    (block : CBlock) (fJustCheck : Bool) :
    (∃ r, ConnectBlock env now block (indexOf env block s.chainActive) s.pcoinsTip fJustCheck = .ok r)
      ∨ ∃ r, ConnectBlock env now block (indexOf env block s.chainActive) s.pcoinsTip fJustCheck
        = .error (.invalid r) := by
  have hinv := h.inv
  exact ConnectBlock_answers env now block fJustCheck hinv.storable.kept (Nat.succ_ne_zero _)
    hinv.hashBlock.symm

theorem Reachable.connects_back :
    (∃ r, ConnectBlock mainEnv 1231469744 blockTwo (indexOf mainEnv blockTwo State.back.chainActive)
        State.back.pcoinsTip false = .ok r)
      ∨ ∃ r, ConnectBlock mainEnv 1231469744 blockTwo (indexOf mainEnv blockTwo State.back.chainActive)
        State.back.pcoinsTip false = .error (.invalid r) :=
  Reachable.connects reachable_back 1231469744 blockTwo false

/-- **All coins can be written to the disk and are read again**: a flush succeeds, whatever it
    writes, and then coins with an output that is left are those that the disk makes of them,
    while the others are gone. -/
theorem Reachable.flushes {env : Env} {K : KeyLibrary} {s : State} (h : Reachable env K s)
    (cacheCoins : Uint256 → Bool) :
    (∃ coins, Flushed K cacheCoins s.pcoinsTip.coins coins)
      ∧ ∀ coins, Flushed K cacheCoins s.pcoinsTip.coins coins →
        ∀ txid c, s.pcoinsTip.coins txid = some c → cacheCoins txid = true →
          coins txid = if c.IsPruned then none else some (diskCoins c) := by
  have hstorable := h.inv.storable
  constructor
  · refine ⟨fun txid =>
      match s.pcoinsTip.coins txid, cacheCoins txid with
      | some c, true => if c.IsPruned then none else some (diskCoins c)
      | found, _ => found, ?_⟩
    intro txid
    have htx := hstorable txid
    cases hfound : s.pcoinsTip.coins txid with
    | none => simp only [hfound]
    | some c =>
        rw [hfound] at htx
        cases hcache : cacheCoins txid with
        | false => simp only [hfound, hcache]
        | true => simp only [hfound, hcache, flushCoins_eq htx]
  · intro coins hflush txid c hfound hcache
    have htx := hstorable txid
    have hone := hflush txid
    rw [hfound] at htx
    rw [hfound, hcache] at hone
    have hone : flushCoins K c = some (coins txid) := hone
    rw [flushCoins_eq htx] at hone
    exact (Option.some.inj hone).symm

theorem Reachable.flushes_again :
    (∃ coins, Flushed firstKeyLibrary (fun _ => true) State.again.pcoinsTip.coins coins)
      ∧ ∀ coins, Flushed firstKeyLibrary (fun _ => true) State.again.pcoinsTip.coins coins →
        ∀ txid c, State.again.pcoinsTip.coins txid = some c → true = true →
          coins txid = if c.IsPruned then none else some (diskCoins c) :=
  Reachable.flushes reachable_again (fun _ => true)

end Chainstate
