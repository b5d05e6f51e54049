import FpgaMiner.ChainstateProofs
import Mathlib.Data.List.AList

/-! # Caches of coins

    A `CCoinsViewCache` keeps what was asked for or changed, on top of another cache or of the
    database.  `ConnectTip` opens one over `pcoinsTip` and flushes it into that, and `pcoinsTip` is
    flushed into the database, where the coins are records of bytes.

    * **`fetch_spec`** — asking changes what is cached, at every level, and what is shown at none;
    * **`Step.simulates`** and **`Run.refines_views`** — caches over the database behave as a stack of
      plain views, with one copied over the other when it is flushed;
    * **`flush_reachable`** — in a state of the chain, flushing the last cache is defined, and it
      is the step of the chain state that was assumed for it. -/

namespace CoinsCache

open MinerDriver BlockHeader Serialize Transaction Block Coins Chainstate

/-! ## The code -/

/-- The records of `CCoinsViewDB`. -/
structure CCoinsViewDB where
  coins : Uint256 → Option (List Byte)
  hashBestChain : Option Uint256

/-- A cache: the coins that it has seen or that were set in it, and its best block, zero until
    it is asked for. -/
structure CCoinsViewCache where
  hashBlock : Uint256 := 0
  cacheCoins : AList (fun _ : Uint256 => CCoins) := ∅

/-- Caches over the database, the last one opened first. -/
structure Stack where
  top : CCoinsViewCache
  below : List CCoinsViewCache
  db : CCoinsViewDB

section Code

variable (K : KeyLibrary) (db : CCoinsViewDB)

/-- A record that cannot be read is none. -/
def CCoinsViewDB.GetCoins (txid : Uint256) : Option CCoins :=
  match db.coins txid with
  | none => none
  | some record => (CCoins.Unserialize K record).map Prod.fst

/-- The best block on the disk, zero before there is one. -/
def CCoinsViewDB.GetBestBlock : Uint256 := db.hashBestChain.getD 0

/-- `GetCoins` and `FetchCoins`: every cache on the way keeps what was found. -/
def fetch (txid : Uint256) : List CCoinsViewCache → Option CCoins × List CCoinsViewCache
  | [] => (db.GetCoins K txid, [])
  | cache :: layers =>
      match cache.cacheCoins.lookup txid with
      | some coins => (some coins, cache :: layers)
      | none =>
          match fetch txid layers with
          | (some coins, layers) =>
              (some coins, { cache with cacheCoins := cache.cacheCoins.insert txid coins } :: layers)
          | (none, layers) => (none, cache :: layers)

/-- `GetBestBlock` -/
def bestBlock : List CCoinsViewCache → Uint256 × List CCoinsViewCache
  | [] => (db.GetBestBlock, [])
  | cache :: layers =>
      if cache.hashBlock = 0 then
        let r := bestBlock layers
        (r.1, { cache with hashBlock := r.1 } :: r.2)
      else (cache.hashBlock, cache :: layers)

/-- `BatchWriteCoins`; `none` is a failed assertion. -/
def batchWriteCoins (records : Uint256 → Option (List Byte)) (txid : Uint256) (coins : CCoins) :
    Option (Uint256 → Option (List Byte)) :=
  if coins.IsPruned then some (Function.update records txid none)
  else
    match coins.Serialize K with
    | none => none
    | some record => some (Function.update records txid (some record))

/-- The loop of `CCoinsViewDB::BatchWrite`; the keys of a map differ, so that the order in which
    they are written does not matter. -/
def batchWrite (records : Uint256 → Option (List Byte)) :
    List (Sigma fun _ : Uint256 => CCoins) → Option (Uint256 → Option (List Byte))
  | [] => some records
  | ⟨txid, coins⟩ :: rest =>
      match batchWrite records rest with
      | none => none
      | some records => batchWriteCoins K records txid coins

/-- A batch of coins and, unless it is zero, the best block are written. -/
def CCoinsViewDB.BatchWrite (mapCoins : AList (fun _ : Uint256 => CCoins)) (hashBlock : Uint256) :
    Option CCoinsViewDB :=
  match batchWrite K db.coins mapCoins.entries with
  | none => none
  | some coins => some ⟨coins, if hashBlock ≠ 0 then some hashBlock else db.hashBestChain⟩

/-- `CCoinsViewCache::BatchWrite` -/
def CCoinsViewCache.BatchWrite (cache : CCoinsViewCache)
    (mapCoins : AList (fun _ : Uint256 => CCoins)) (hashBlock : Uint256) : CCoinsViewCache :=
  ⟨hashBlock, mapCoins.entries.foldr (fun p m => m.insert p.1 p.2) cache.cacheCoins⟩

end Code

/-- What is asked of the last cache, with the answer, and what is done to it.  Coins that are
    changed through the reference from `GetCoins` are asked for and set. -/
inductive Event
  | GetCoins (txid : Uint256) (found : Option CCoins)
  | HaveCoins (txid : Uint256) (found : Bool)
  | SetCoins (txid : Uint256) (coins : CCoins)
  | GetBestBlock (hashBlock : Uint256)
  | SetBestBlock (hashBlock : Uint256)
  | opened
  | closed
  | Flush

/-- One call.  A cache that is flushed into another has been asked for its block before, as
    `ConnectBlock` and `DisconnectBlock` do. -/
inductive Step (K : KeyLibrary) : Stack → Event → Stack → Prop
  | GetCoins {s : Stack} {txid : Uint256} {found : Option CCoins} {top : CCoinsViewCache}
      {below : List CCoinsViewCache} :
      fetch K s.db txid (s.top :: s.below) = (found, top :: below) →
      Step K s (.GetCoins txid found) ⟨top, below, s.db⟩
  | HaveCoins {s : Stack} {txid : Uint256} {found : Option CCoins} {top : CCoinsViewCache}
      {below : List CCoinsViewCache} :
      fetch K s.db txid (s.top :: s.below) = (found, top :: below) →
      Step K s (.HaveCoins txid found.isSome) ⟨top, below, s.db⟩
  | SetCoins {s : Stack} {txid : Uint256} {coins : CCoins} :
      Step K s (.SetCoins txid coins)
        { s with top := { s.top with cacheCoins := s.top.cacheCoins.insert txid coins } }
  | GetBestBlock {s : Stack} {hashBlock : Uint256} {top : CCoinsViewCache}
      {below : List CCoinsViewCache} :
      bestBlock s.db (s.top :: s.below) = (hashBlock, top :: below) →
      Step K s (.GetBestBlock hashBlock) ⟨top, below, s.db⟩
  -- no block has the hash that stands for an unknown one
  | SetBestBlock {s : Stack} {hashBlock : Uint256} : hashBlock ≠ 0 →
      Step K s (.SetBestBlock hashBlock) { s with top := { s.top with hashBlock := hashBlock } }
  | opened {s : Stack} : Step K s .opened ⟨{}, s.top :: s.below, s.db⟩
  | closed {top cache : CCoinsViewCache} {below : List CCoinsViewCache} {db : CCoinsViewDB} :
      Step K ⟨top, cache :: below, db⟩ .closed ⟨cache, below, db⟩
  | Flush {top cache : CCoinsViewCache} {below : List CCoinsViewCache} {db : CCoinsViewDB} :
      top.hashBlock ≠ 0 →
      Step K ⟨top, cache :: below, db⟩ .Flush
        ⟨{ top with cacheCoins := ∅ }, cache.BatchWrite top.cacheCoins top.hashBlock :: below, db⟩
  | FlushDB {top : CCoinsViewCache} {db db' : CCoinsViewDB} :
      db.BatchWrite K top.cacheCoins top.hashBlock = some db' →
      Step K ⟨top, [], db⟩ .Flush ⟨{ top with cacheCoins := ∅ }, [], db'⟩

/-! ## What is meant -/

/-- A stack of plain views over the one of the database. -/
structure Views where
  top : View
  below : List View
  disk : View

/-- The same calls on plain views. -/
inductive ViewStep (K : KeyLibrary) : Views → Event → Views → Prop
  | GetCoins {v : Views} {txid : Uint256} : ViewStep K v (.GetCoins txid (v.top.coins txid)) v
  | HaveCoins {v : Views} {txid : Uint256} : ViewStep K v (.HaveCoins txid (v.top.coins txid).isSome) v
  | SetCoins {v : Views} {txid : Uint256} {coins : CCoins} :
      ViewStep K v (.SetCoins txid coins)
        { v with top := ⟨Coins.SetCoins v.top.coins txid coins, v.top.hashBlock⟩ }
  | GetBestBlock {v : Views} : ViewStep K v (.GetBestBlock v.top.hashBlock) v
  | SetBestBlock {v : Views} {hashBlock : Uint256} :
      ViewStep K v (.SetBestBlock hashBlock) { v with top := ⟨v.top.coins, hashBlock⟩ }
  | opened {v : Views} : ViewStep K v .opened ⟨v.top, v.top :: v.below, v.disk⟩
  | closed {top view disk : View} {below : List View} :
      ViewStep K ⟨top, view :: below, disk⟩ .closed ⟨view, below, disk⟩
  | Flush {top view disk : View} {below : List View} :
      ViewStep K ⟨top, view :: below, disk⟩ .Flush ⟨top, top :: below, disk⟩
  | FlushDB {top disk : View} {cacheCoins : Uint256 → Bool} {coins : CoinsMap} :
      Flushed K cacheCoins top.coins coins →
      ViewStep K ⟨top, [], disk⟩ .Flush ⟨⟨coins, top.hashBlock⟩, [], ⟨coins, top.hashBlock⟩⟩

/-- What caches over the database show. -/
def shown (K : KeyLibrary) (db : CCoinsViewDB) : List CCoinsViewCache → View
  | [] => ⟨db.GetCoins K, db.GetBestBlock⟩
  | cache :: layers =>
      ⟨fun txid => (cache.cacheCoins.lookup txid).or ((shown K db layers).coins txid),
        if cache.hashBlock = 0 then (shown K db layers).hashBlock else cache.hashBlock⟩

/-- What each of them shows. -/
def shownAll (K : KeyLibrary) (db : CCoinsViewDB) : List CCoinsViewCache → List View
  | [] => []
  | cache :: layers => shown K db (cache :: layers) :: shownAll K db layers

/-- The plain views that a stack of caches stands for, from the top down. -/
def Stack.views (K : KeyLibrary) (s : Stack) : Views :=
  ⟨shown K s.db (s.top :: s.below), shownAll K s.db s.below, shown K s.db []⟩

/-! ## Asking -/

/-- Looking up in a cache in which coins were set. -/
theorem lookup_insert_eq (m : AList (fun _ : Uint256 => CCoins)) (txid t : Uint256) (coins : CCoins) :
    (m.insert txid coins).lookup t = if t = txid then some coins else m.lookup t := by
  by_cases h : t = txid
  · rw [if_pos h, h, AList.lookup_insert]
  · rw [if_neg h, AList.lookup_insert_ne h]

/-- **Asking shows what is there**, and changes what is shown nowhere. -/
theorem fetch_spec (K : KeyLibrary) (db : CCoinsViewDB) (txid : Uint256)
    (layers : List CCoinsViewCache) :
    (fetch K db txid layers).1 = (shown K db layers).coins txid
      ∧ shown K db (fetch K db txid layers).2 = shown K db layers
      ∧ shownAll K db (fetch K db txid layers).2 = shownAll K db layers := by
  induction layers with
  | nil => exact ⟨rfl, rfl, rfl⟩
  | cons cache layers ih =>
      obtain ⟨hfound, hshown, hall⟩ := ih
      cases hcache : cache.cacheCoins.lookup txid with
      | some coins =>
          rw [fetch, hcache]
          refine ⟨?_, rfl, rfl⟩
          show some coins = (cache.cacheCoins.lookup txid).or _
          rw [hcache, Option.some_or]
      | none =>
          rw [fetch, hcache]
          cases hfetch : fetch K db txid layers with
          | mk found layers' =>
              rw [hfetch] at hfound hshown hall
              simp only at hfound hshown hall
              have hnone : (shown K db (cache :: layers)).coins txid = found := by
                show (cache.cacheCoins.lookup txid).or _ = _
                rw [hcache, Option.none_or, hfound]
              cases found with
              | none =>
                  have hsame : shown K db (cache :: layers') = shown K db (cache :: layers) := by
                    rw [shown, hshown, shown]
                  refine ⟨hnone.symm, hsame, ?_⟩
                  show shown K db (cache :: layers') :: shownAll K db layers' = _
                  rw [hsame, hall, shownAll]
              | some coins =>
                  -- it is cached now, and shown as it was shown below
                  have hsame : shown K db
                      ({ cache with cacheCoins := cache.cacheCoins.insert txid coins } :: layers')
                      = shown K db (cache :: layers) := by
                    rw [shown, hshown, shown]
                    refine congrArg₂ View.mk (funext fun t => ?_) rfl
                    rw [lookup_insert_eq]
                    split
                    · next ht => rw [ht, hcache, Option.some_or, Option.none_or, ← hfound]
                    · rfl
                  refine ⟨hnone.symm, hsame, ?_⟩
                  show shown K db (_ :: layers') :: shownAll K db layers' = _
                  rw [hsame, hall, shownAll]

/-- The best block is asked for through the layers; no layer shows another view afterwards. -/
theorem bestBlock_spec (K : KeyLibrary) (db : CCoinsViewDB) (layers : List CCoinsViewCache) :
    (bestBlock db layers).1 = (shown K db layers).hashBlock
      ∧ shown K db (bestBlock db layers).2 = shown K db layers
      ∧ shownAll K db (bestBlock db layers).2 = shownAll K db layers := by
  induction layers with
  | nil => exact ⟨rfl, rfl, rfl⟩
  | cons cache layers ih =>
      obtain ⟨hhash, hshown, hall⟩ := ih
      rw [bestBlock]
      by_cases hzero : cache.hashBlock = 0
      · rw [if_pos hzero]
        have hsame : shown K db ({ cache with hashBlock := (bestBlock db layers).1 }
            :: (bestBlock db layers).2) = shown K db (cache :: layers) := by
          rw [shown, hshown, shown, if_pos hzero, hhash]
          refine congrArg₂ View.mk rfl ?_
          split
          · rfl
          · rfl
        refine ⟨?_, hsame, ?_⟩
        · rw [shown, if_pos hzero]
          exact hhash
        · show shown K db (_ :: (bestBlock db layers).2) :: shownAll K db (bestBlock db layers).2 = _
          rw [hsame, hall, shownAll]
      · rw [if_neg hzero]
        refine ⟨?_, rfl, rfl⟩
        rw [shown, if_neg hzero]

/-! ## Flushing -/

/-- The newer cache over the older one, coin by coin. -/
theorem lookup_foldr (entries : List (Sigma fun _ : Uint256 => CCoins))
    (m : AList (fun _ : Uint256 => CCoins)) (txid : Uint256) :
    (entries.foldr (fun p m => m.insert p.1 p.2) m).lookup txid
      = (entries.dlookup txid).or (m.lookup txid) := by
  induction entries with
  | nil => rfl
  | cons p entries ih =>
      rw [List.foldr_cons, lookup_insert_eq]
      by_cases h : txid = p.1
      · obtain ⟨t, coins⟩ := p
        have ht : txid = t := h
        rw [if_pos h, ht, List.dlookup_cons_eq, Option.some_or]
      · rw [if_neg h, ih, List.dlookup_cons_ne entries p h]

/-- A cache that was flushed into another shows what it showed, and so does the other. -/
theorem shown_BatchWrite (K : KeyLibrary) (db : CCoinsViewDB) (top cache : CCoinsViewCache)
    (below : List CCoinsViewCache) (hhash : top.hashBlock ≠ 0) :
    shown K db (cache.BatchWrite top.cacheCoins top.hashBlock :: below)
      = shown K db (top :: cache :: below) := by
  have hne : (cache.BatchWrite top.cacheCoins top.hashBlock).hashBlock ≠ 0 := hhash
  rw [shown, shown, shown, if_neg hhash, if_neg hne]
  refine congrArg₂ View.mk (funext fun txid => ?_) rfl
  rw [CCoinsViewCache.BatchWrite, lookup_foldr, Option.or_assoc]
  rfl

/-- A best block that a layer has is the one it shows. -/
theorem shown_hashBlock {K : KeyLibrary} {db : CCoinsViewDB} {cache : CCoinsViewCache}
    {layers : List CCoinsViewCache} (h : cache.hashBlock ≠ 0) :
    (shown K db (cache :: layers)).hashBlock = cache.hashBlock := if_neg h

/-- A layer without coins shows what is below it. -/
theorem shown_cleared (K : KeyLibrary) (db : CCoinsViewDB) (top : CCoinsViewCache)
    (layers : List CCoinsViewCache) :
    shown K db ({ top with cacheCoins := ∅ } :: layers)
      = ⟨(shown K db layers).coins, (shown K db (top :: layers)).hashBlock⟩ := by
  rw [shown, shown]
  refine congrArg₂ View.mk (funext fun txid => ?_) rfl
  rw [AList.lookup_empty, Option.none_or]

/-- What is read depends on the record only. -/
theorem GetCoins_congr (K : KeyLibrary) {db db' : CCoinsViewDB} {txid : Uint256}
    (h : db.coins txid = db'.coins txid) : db.GetCoins K txid = db'.GetCoins K txid := by
  rw [CCoinsViewDB.GetCoins, h]
  rfl

/-- Writing one transaction's coins and reading them is `flushCoins`. -/
theorem batchWriteCoins_eq {K : KeyLibrary} {records records' : Uint256 → Option (List Byte)}
    {txid : Uint256} {coins : CCoins} (h : batchWriteCoins K records txid coins = some records') :
    flushCoins K coins = some (CCoinsViewDB.GetCoins K ⟨records', none⟩ txid)
      ∧ ∀ t, t ≠ txid → records' t = records t := by
  rw [batchWriteCoins] at h
  rw [flushCoins]
  by_cases hp : coins.IsPruned = true
  · rw [if_pos hp] at h
    obtain rfl := Option.some.inj h
    rw [if_pos hp]
    refine ⟨?_, fun t ht => Function.update_of_ne ht _ _⟩
    simp only [CCoinsViewDB.GetCoins, Function.update_self]
  · rw [if_neg hp] at h
    rw [if_neg hp]
    cases hs : coins.Serialize K with
    | none =>
        rw [hs] at h
        cases h
    | some record =>
        rw [hs] at h
        obtain rfl := Option.some.inj h
        refine ⟨?_, fun t ht => Function.update_of_ne ht _ _⟩
        simp only [CCoinsViewDB.GetCoins, Function.update_self]

/-- **What a batch writes** is what is read afterwards, and nothing else changes. -/
theorem batchWrite_spec {K : KeyLibrary} {records records' : Uint256 → Option (List Byte)}
    {entries : List (Sigma fun _ : Uint256 => CCoins)} (h : batchWrite K records entries = some records')
    (txid : Uint256) :
    match entries.dlookup txid with
    | some coins => flushCoins K coins = some (CCoinsViewDB.GetCoins K ⟨records', none⟩ txid)
    | none => records' txid = records txid := by
  induction entries generalizing records' with
  | nil =>
      obtain rfl := Option.some.inj h
      rfl
  | cons p entries ih =>
      obtain ⟨t, coins⟩ := p
      rw [batchWrite] at h
      cases hrest : batchWrite K records entries with
      | none =>
          rw [hrest] at h
          cases h
      | some between =>
          rw [hrest] at h
          obtain ⟨hone, hother⟩ := batchWriteCoins_eq h
          -- the first entry is written last
          by_cases ht : txid = t
          · rw [ht, List.dlookup_cons_eq]
            exact hone
          · have hsame : CCoinsViewDB.GetCoins K ⟨records', none⟩ txid
                = CCoinsViewDB.GetCoins K ⟨between, none⟩ txid := GetCoins_congr K (hother txid ht)
            have hih := ih hrest
            rw [List.dlookup_cons_ne entries ⟨t, coins⟩ ht]
            cases hfound : entries.dlookup txid with
            | some c =>
                rw [hfound] at hih
                show flushCoins K c = some (CCoinsViewDB.GetCoins K ⟨records', none⟩ txid)
                rw [hsame]
                exact hih
            | none =>
                rw [hfound] at hih
                exact (hother txid ht).trans hih

/-- Flushing into the database changes what is shown by what the disk makes of it. -/
theorem BatchWrite_flushed {K : KeyLibrary} {top : CCoinsViewCache} {db db' : CCoinsViewDB}
    (h : db.BatchWrite K top.cacheCoins top.hashBlock = some db') :
    Flushed K (fun txid => (top.cacheCoins.lookup txid).isSome) (shown K db [top]).coins
        (db'.GetCoins K)
      ∧ db'.GetBestBlock = (shown K db [top]).hashBlock := by
  rw [CCoinsViewDB.BatchWrite] at h
  cases hwrite : batchWrite K db.coins top.cacheCoins.entries with
  | none =>
      rw [hwrite] at h
      cases h
  | some records =>
      rw [hwrite] at h
      obtain rfl := Option.some.inj h
      refine ⟨?_, ?_⟩
      · intro txid
        have hone := batchWrite_spec hwrite txid
        have hshown : (shown K db [top]).coins txid
            = (top.cacheCoins.lookup txid).or (db.GetCoins K txid) := rfl
        rw [show top.cacheCoins.entries.dlookup txid = top.cacheCoins.lookup txid from rfl] at hone
        cases hfound : top.cacheCoins.lookup txid with
        | some coins =>
            rw [hfound] at hone
            simp only [hshown, hfound, Option.some_or, Option.isSome_some]
            exact hone
        | none =>
            rw [hfound] at hone
            have hsame : CCoinsViewDB.GetCoins K ⟨records,
                if top.hashBlock ≠ 0 then some top.hashBlock else db.hashBestChain⟩ txid
                = db.GetCoins K txid := GetCoins_congr K hone
            simp only [hshown, hfound, Option.none_or, Option.isSome_none]
            rw [hsame]
            cases db.GetCoins K txid with
            | none => rfl
            | some coins => rfl
      · rw [CCoinsViewDB.GetBestBlock, shown]
        by_cases hzero : top.hashBlock = 0
        · simp only [hzero, ne_eq, not_true_eq_false, if_false, if_true]
          rfl
        · simp only [ne_eq, hzero, not_false_eq_true, if_true, if_false, Option.getD_some]

/-- The last cache shows what the database holds then. -/
theorem shown_flushed {K : KeyLibrary} {top : CCoinsViewCache} {db db' : CCoinsViewDB}
    (h : db.BatchWrite K top.cacheCoins top.hashBlock = some db') :
    shown K db' [{ top with cacheCoins := ∅ }] = ⟨db'.GetCoins K, (shown K db [top]).hashBlock⟩ := by
  have hkept : (shown K db' [top]).hashBlock = (shown K db [top]).hashBlock := by
    by_cases hzero : top.hashBlock = 0
    · -- without a block of its own the cache shows the database's, which is not written then
      rw [← (BatchWrite_flushed h).2, shown, if_pos hzero]
      rfl
    · rw [shown_hashBlock hzero, shown_hashBlock hzero]
  rw [shown_cleared, hkept]
  rfl

/-! ## The simulation -/

/-- Layers that show the same views stand for the same stack. -/
theorem views_congr {K : KeyLibrary} {db : CCoinsViewDB} {top top' : CCoinsViewCache}
    {below below' : List CCoinsViewCache} (hshown : shown K db (top' :: below') = shown K db (top :: below))
    (hall : shownAll K db (top' :: below') = shownAll K db (top :: below)) :
    Stack.views K ⟨top', below', db⟩ = Stack.views K ⟨top, below, db⟩ := by
  rw [shownAll, shownAll] at hall
  rw [Stack.views, Stack.views]
  simp only [hshown, (List.cons.inj hall).2]

/-- **A lookup** answers from the view on top and changes no view. -/
theorem views_fetch {K : KeyLibrary} {s : Stack} {txid : Uint256} {found : Option CCoins}
    {top : CCoinsViewCache} {below : List CCoinsViewCache}
    (h : fetch K s.db txid (s.top :: s.below) = (found, top :: below)) :
    found = (s.views K).top.coins txid ∧ Stack.views K ⟨top, below, s.db⟩ = s.views K := by
  obtain ⟨hfound, hshown, hall⟩ := fetch_spec K s.db txid (s.top :: s.below)
  rw [h] at hfound hshown hall
  exact ⟨hfound, views_congr hshown hall⟩

/-- **The best block**, likewise. -/
theorem views_bestBlock {K : KeyLibrary} {s : Stack} {hashBlock : Uint256} {top : CCoinsViewCache}
    {below : List CCoinsViewCache} (h : bestBlock s.db (s.top :: s.below) = (hashBlock, top :: below)) :
    hashBlock = (s.views K).top.hashBlock ∧ Stack.views K ⟨top, below, s.db⟩ = s.views K := by
  obtain ⟨hhash, hshown, hall⟩ := bestBlock_spec K s.db (s.top :: s.below)
  rw [h] at hhash hshown hall
  exact ⟨hhash, views_congr hshown hall⟩

/-- **Setting coins** sets them in the view on top. -/
theorem views_insert (K : KeyLibrary) (s : Stack) (txid : Uint256) (coins : CCoins) :
    Stack.views K { s with top := { s.top with cacheCoins := s.top.cacheCoins.insert txid coins } }
      = { s.views K with
          top := ⟨Coins.SetCoins (s.views K).top.coins txid coins, (s.views K).top.hashBlock⟩ } := by
  refine congrArg (fun top => Views.mk top _ _) (congrArg₂ View.mk (funext fun t => ?_) rfl)
  rw [lookup_insert_eq]
  by_cases ht : t = txid
  · rw [if_pos ht, ht, SetCoins_self, Option.some_or]
  · rw [if_neg ht, SetCoins_of_ne _ ht]
    rfl

/-- **Setting the best block** sets it in the view on top. -/
theorem views_hashBlock (K : KeyLibrary) (s : Stack) {hashBlock : Uint256} (hne : hashBlock ≠ 0) :
    Stack.views K { s with top := { s.top with hashBlock := hashBlock } }
      = { s.views K with top := ⟨(s.views K).top.coins, hashBlock⟩ } :=
  congrArg (fun top => Views.mk top _ _) (congrArg₂ View.mk rfl (if_neg hne))

/-- **A new cache** shows what is below it. -/
theorem views_opened (K : KeyLibrary) (s : Stack) :
    Stack.views K ⟨{}, s.top :: s.below, s.db⟩
      = ⟨(s.views K).top, (s.views K).top :: (s.views K).below, (s.views K).disk⟩ := by
  refine congrArg (fun top => Views.mk top _ _) (congrArg₂ View.mk (funext fun t => ?_) (if_pos rfl))
  rw [AList.lookup_empty, Option.none_or]
  rfl

/-- **A flush into a cache** makes the view below equal to the one above. -/
theorem views_Flush (K : KeyLibrary) (db : CCoinsViewDB) (top cache : CCoinsViewCache)
    (below : List CCoinsViewCache) (hhash : top.hashBlock ≠ 0) :
    Stack.views K ⟨{ top with cacheCoins := ∅ },
        cache.BatchWrite top.cacheCoins top.hashBlock :: below, db⟩
      = ⟨shown K db (top :: cache :: below),
        shown K db (top :: cache :: below) :: shownAll K db below, shown K db []⟩ := by
  have hbelow := shown_BatchWrite K db top cache below hhash
  have hkept : (shown K db (top :: cache.BatchWrite top.cacheCoins top.hashBlock :: below)).hashBlock
      = (shown K db (top :: cache :: below)).hashBlock := by
    rw [shown_hashBlock hhash, shown_hashBlock hhash]
  have htop : shown K db ({ top with cacheCoins := ∅ }
      :: cache.BatchWrite top.cacheCoins top.hashBlock :: below) = shown K db (top :: cache :: below) := by
    rw [shown_cleared, hkept, hbelow]
  rw [Stack.views, shownAll]
  simp only [htop, hbelow]

/-- **A flush to the disk** makes the disk show what its format makes of the view above. -/
theorem views_FlushDB {K : KeyLibrary} {top : CCoinsViewCache} {db db' : CCoinsViewDB}
    (h : db.BatchWrite K top.cacheCoins top.hashBlock = some db') :
    Stack.views K ⟨{ top with cacheCoins := ∅ }, [], db'⟩
      = ⟨⟨db'.GetCoins K, (shown K db [top]).hashBlock⟩, [],
        ⟨db'.GetCoins K, (shown K db [top]).hashBlock⟩⟩ := by
  rw [Stack.views, shown_flushed h, shown, (BatchWrite_flushed h).2]
  rfl

/-- **Each call on the caches is the same call on plain views**, with the same answer. -/
theorem Step.simulates {K : KeyLibrary} {s s' : Stack} {e : Event} (h : Step K s e s') :
    ViewStep K (s.views K) e (s'.views K) := by
  cases h with
  | GetCoins hfetch =>
      obtain ⟨rfl, hviews⟩ := views_fetch hfetch
      rw [hviews]
      exact ViewStep.GetCoins
  | HaveCoins hfetch =>
      obtain ⟨rfl, hviews⟩ := views_fetch hfetch
      rw [hviews]
      exact ViewStep.HaveCoins
  | SetCoins =>
      rw [views_insert]
      exact ViewStep.SetCoins
  | GetBestBlock hbest =>
      obtain ⟨hhash, hviews⟩ := views_bestBlock (K := K) hbest
      rw [hviews, hhash]
      exact ViewStep.GetBestBlock
  | SetBestBlock hne =>
      rw [views_hashBlock K s hne]
      exact ViewStep.SetBestBlock
  | opened =>
      rw [views_opened]
      exact ViewStep.opened
  | closed => exact ViewStep.closed
  | Flush hhash =>
      rw [views_Flush K _ _ _ _ hhash]
      exact ViewStep.Flush
  | FlushDB hwrite =>
      rw [views_FlushDB hwrite]
      exact ViewStep.FlushDB (BatchWrite_flushed hwrite).1

/-- Calls one after the other. -/
inductive Run {σ : Type} (step : σ → Event → σ → Prop) : σ → List Event → σ → Prop
  | nil {s : σ} : Run step s [] s
  | cons {s s' s'' : σ} {e : Event} {es : List Event} :
      step s e s' → Run step s' es s'' → Run step s (e :: es) s''

/-- **Caches over the database are a stack of plain views**, whatever is asked of them. -/
theorem Run.refines_views {K : KeyLibrary} {s s' : Stack} {es : List Event} (h : Run (Step K) s es s') :
    Run (ViewStep K) (s.views K) es (s'.views K) := by
  induction h with
  | nil => exact Run.nil
  | cons hstep _ ih => exact Run.cons hstep.simulates ih

/-- The database before any block. -/
def emptyDB : CCoinsViewDB := ⟨fun _ => none, none⟩

theorem Run.refines_views_one :
    Run (ViewStep firstKeyLibrary) (Stack.views firstKeyLibrary ⟨{}, [], emptyDB⟩)
      [.opened, .SetBestBlock 7, .SetCoins 5 {}, .HaveCoins 5 true, .Flush, .closed, .HaveCoins 5 true]
      (Stack.views firstKeyLibrary ⟨⟨7, AList.singleton 5 {}⟩, [], emptyDB⟩) :=
  Run.refines_views
    (Run.cons Step.opened (Run.cons (Step.SetBestBlock (by decide)) (Run.cons Step.SetCoins
      (Run.cons (@Step.HaveCoins _ _ _ (some {}) _ _ rfl) (Run.cons (Step.Flush (by decide))
        (Run.cons Step.closed (Run.cons (@Step.HaveCoins _ _ _ (some {}) _ _ rfl) Run.nil)))))))

/-! ## The state of the chain -/

/-- Coins that can be written one by one can be written together. -/
theorem batchWrite_isSome {K : KeyLibrary} (records : Uint256 → Option (List Byte))
    {entries : List (Sigma fun _ : Uint256 => CCoins)}
    (h : ∀ p ∈ entries, ∃ r, flushCoins K p.2 = some r) :
    ∃ records', batchWrite K records entries = some records' := by
  induction entries with
  | nil => exact ⟨records, rfl⟩
  | cons p entries ih =>
      obtain ⟨txid, coins⟩ := p
      obtain ⟨⟨r, hr⟩, hrest⟩ := List.forall_mem_cons.mp h
      obtain ⟨between, hbetween⟩ := ih hrest
      rw [batchWrite, hbetween]
      show ∃ records', batchWriteCoins K between txid coins = some records'
      rw [flushCoins] at hr
      rw [batchWriteCoins]
      by_cases hp : coins.IsPruned = true
      · rw [if_pos hp]
        exact ⟨_, rfl⟩
      · rw [if_neg hp] at hr ⊢
        cases hs : coins.Serialize K with
        | none =>
            rw [hs] at hr
            cases hr
        | some record => exact ⟨_, rfl⟩

/-- **Flushing `pcoinsTip` is a step of the chain state**, and no assertion stops it. -/
theorem flush_reachable {env : Env} {K : KeyLibrary} {s : State} {top : CCoinsViewCache}
    {db : CCoinsViewDB} (h : Reachable env K s) (htip : shown K db [top] = s.pcoinsTip) :
    ∃ db', db.BatchWrite K top.cacheCoins top.hashBlock = some db'
      ∧ Reachable env K ⟨s.chainActive, shown K db' [{ top with cacheCoins := ∅ }], s.undoFile⟩ := by
  have hstorable := h.inv.storable
  -- what is cached is shown, and what is shown can be stored
  have hentries : ∀ p ∈ top.cacheCoins.entries, ∃ r, flushCoins K p.2 = some r := by
    intro p hp
    have hlookup : top.cacheCoins.lookup p.1 = some p.2 := AList.mem_lookup_iff.mpr hp
    have hcoins : s.pcoinsTip.coins p.1 = some p.2 := by
      rw [← htip]
      show (top.cacheCoins.lookup p.1).or _ = _
      rw [hlookup, Option.some_or]
    have hone := hstorable p.1
    rw [hcoins] at hone
    exact ⟨_, flushCoins_eq hone⟩
  obtain ⟨records, hrecords⟩ := batchWrite_isSome db.coins hentries
  have hwrite : db.BatchWrite K top.cacheCoins top.hashBlock
      = some ⟨records, if top.hashBlock ≠ 0 then some top.hashBlock else db.hashBestChain⟩ := by
    rw [CCoinsViewDB.BatchWrite, hrecords]
  refine ⟨_, hwrite, h.tail ?_⟩
  have hflushed := (BatchWrite_flushed hwrite).1
  rw [htip] at hflushed
  rw [shown_flushed hwrite, htip]
  exact Chainstate.Step.flush hflushed

/-- A cache with the coins of two blocks. -/
def againCache : CCoinsViewCache :=
  ⟨blockTwo.GetHash, (AList.singleton oneTx.GetHash (CCoins.ofTx oneTx 1)).insert twoTx.GetHash
    (CCoins.ofTx twoTx 2)⟩

/-- The cache shows the view of the tip, after the second block was connected again. -/
theorem shown_againCache : shown firstKeyLibrary emptyDB [againCache] = State.again.pcoinsTip := by
  have hhash : againCache.hashBlock ≠ 0 := by
    show blockTwo.GetHash ≠ 0
    rw [blockTwo_GetHash]
    decide
  rw [shown, if_neg hhash]
  refine congrArg₂ View.mk (funext fun txid => ?_) rfl
  show (againCache.cacheCoins.lookup txid).or none = State.again.pcoinsTip.coins txid
  rw [Option.or_none, againCache, lookup_insert_eq, ← AList.insert_empty, lookup_insert_eq,
    AList.lookup_empty, State.again_coins]
  by_cases htwo : txid = twoTx.GetHash
  · rw [if_pos htwo, htwo, SetCoins_self]
  · rw [if_neg htwo, SetCoins_of_ne _ htwo, State.back_coins, SetCoins_of_ne _ htwo,
      State.two_coins, SetCoins_of_ne _ htwo, State.one_coins]
    by_cases hone : txid = oneTx.GetHash
    · rw [if_pos hone, hone, SetCoins_self]
    · rw [if_neg hone, SetCoins_of_ne _ hone]

theorem flush_reachable_again :
    ∃ db', emptyDB.BatchWrite firstKeyLibrary againCache.cacheCoins againCache.hashBlock = some db'
      ∧ Reachable mainEnv firstKeyLibrary ⟨State.again.chainActive,
        shown firstKeyLibrary db' [{ againCache with cacheCoins := ∅ }], State.again.undoFile⟩ :=
  flush_reachable reachable_again shown_againCache

end CoinsCache
