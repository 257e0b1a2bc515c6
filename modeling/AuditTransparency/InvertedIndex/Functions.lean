/-
  InvertedIndex — the keyword index of the ledger (`src/inverted_index.rs`).

  A bucket holds the event indices of one keyword hash, packed four bytes each; the
  hashes of an event are kept in a list of their own.  Everything is in the instance
  store.  `u32` and `u64` statistics saturate.

  `Op` has one constructor for every function that can write.  The closure
  `load_event` of `reindex_events` is an argument of it.
-/
import AuditTransparency.InvertedIndex.Extraction
import AuditTransparency.Ledger.Hashing
import AuditTransparency.Soroban.Script

namespace InvertedIndex

open Soroban
open Soroban.Call
open AuditLedger (u32ToBytes)

/-! ## Data -/

structure IndexConfig where
  indexingEnabled : Bool
  minKeywordLen : ℕ
  maxKeywordLen : ℕ
  maxKeywordsPerEvent : ℕ
  bucketMaxEntries : ℕ
  deriving DecidableEq

/-- `default_config` -/
def IndexConfig.defaultConfig : IndexConfig := ⟨true, 3, 32, 20, 10000⟩

structure IndexStats where
  totalIndexedEvents : ℕ
  totalIndexEntries : ℕ
  totalUniqueKeywords : ℕ
  lastReindexEvent : ℕ
  deriving DecidableEq

/-- `MAX_REINDEX_BATCH` -/
def maxReindexBatch : ℕ := 50

/-- `saturating_add` of a `w`-bit unsigned type -/
def saturatingAdd (w a b : ℕ) : ℕ := min (a + b) (2 ^ w - 1)

/-! ## Storage keys -/

inductive IndexKey where
  | indexConfig
  | indexTypeEnabled
  | keywordIndex
  | keywordCount
  | eventKeywords
  | indexStats
  deriving DecidableEq

/-- The argument of a key. -/
@[reducible] def IndexKey.Key (D : Type) : IndexKey → Type
  | indexConfig | indexStats => Unit
  | indexTypeEnabled => Symbol
  | keywordIndex | keywordCount => D
  | eventKeywords => ℕ

/-- The value stored under a key. -/
@[reducible] def IndexKey.Val (D : Type) : IndexKey → Type
  | indexConfig => IndexConfig
  | indexTypeEnabled => Bool
  | keywordIndex => Bytes
  | keywordCount => ℕ
  | eventKeywords => List D
  | indexStats => IndexStats

instance IndexKey.decEqKey {D : Type} [DecidableEq D] : (f : IndexKey) → DecidableEq (f.Key D)
  | indexConfig | indexStats => inferInstanceAs (DecidableEq Unit)
  | indexTypeEnabled => inferInstanceAs (DecidableEq String)
  | keywordIndex | keywordCount => inferInstanceAs (DecidableEq D)
  | eventKeywords => inferInstanceAs (DecidableEq ℕ)

/-- The storage of the index; it publishes nothing. -/
abbrev layout (D : Type) [DecidableEq D] : Layout where
  Field := IndexKey
  Key := IndexKey.Key D
  Val := IndexKey.Val D
  Note := Empty

abbrev State (D : Type) [DecidableEq D] := Ledger (layout D)

/-- A function of the index; none of them panics. -/
abbrev Fn (D : Type) [DecidableEq D] : Type → Type := Call Empty (layout D)

section
variable {D : Type} [DecidableEq D]

/-- `env.storage().instance()` -/
abbrev get (f : IndexKey) (k : f.Key D) : Fn D (Option (f.Val D)) := Call.load (layout D) f k
abbrev set (f : IndexKey) (k : f.Key D) (v : f.Val D) : Fn D Unit := Call.store (layout D) f k v
abbrev delete (f : IndexKey) (k : f.Key D) : Fn D Unit := Call.clear (layout D) f k

/-! ## Helpers -/

/-- `get_index_config` -/
def getIndexConfig : Fn D IndexConfig := do return (← get .indexConfig ()).getD .defaultConfig

/-- `is_indexing_enabled_for_type` -/
def isIndexingEnabledForType (eventType : Symbol) : Fn D Bool := do
  let config ← getIndexConfig
  if config.indexingEnabled = false then return false
  else return (← get .indexTypeEnabled eventType).getD true

/-- `load_bucket` -/
def loadBucket (kwHash : D) : Fn D Bytes := do return (← get .keywordIndex kwHash).getD []

/-- `store_bucket` -/
def storeBucket (kwHash : D) (packed : Bytes) : Fn D Unit := do
  set .keywordIndex kwHash packed
  set .keywordCount kwHash (packed.length / 4)

/-- `load_stats` -/
def loadStats : Fn D IndexStats := do return (← get .indexStats ()).getD ⟨0, 0, 0, 0⟩

/-- `save_stats` -/
def saveStats (stats : IndexStats) : Fn D Unit := set .indexStats () stats

/-- The bucket without the oldest entries beyond `bucketMax`. -/
def evict (packed : Bytes) (bucketMax : ℕ) : Bytes :=
  let entryCount := packed.length / 4
  if entryCount > bucketMax then
    let dropBytes := (entryCount - bucketMax) * 4
    (List.range (bucketMax * 4)).filterMap fun i => packed[dropBytes + i]?
  else packed

/-- `bucket_append` -/
def bucketAppend (kwHash : D) (eventIdx bucketMax : ℕ) : Fn D Unit := do
  let packed ← loadBucket kwHash
  let packed := evict (packed ++ u32ToBytes eventIdx) bucketMax
  let isNew := (← get .keywordCount kwHash).isNone
  storeBucket kwHash packed
  doIf isNew (do
    let stats ← loadStats
    saveStats { stats with totalUniqueKeywords := saturatingAdd 64 stats.totalUniqueKeywords 1 })

/-- `decode_bucket` -/
def decodeBucket (packed : Bytes) : List ℕ :=
  (List.range (packed.length / 4)).filterMap fun i => do
    let b0 ← packed[i * 4]?
    let b1 ← packed[i * 4 + 1]?
    let b2 ← packed[i * 4 + 2]?
    let b3 ← packed[i * 4 + 3]?
    return word b0 b1 b2 b3

/-- The word at an offset; bytes beyond the end are 0. -/
def wordAt (packed : Bytes) (off : ℕ) : ℕ :=
  word (packed[off]?.getD 0) (packed[off + 1]?.getD 0) (packed[off + 2]?.getD 0) (packed[off + 3]?.getD 0)

/-- The bucket without the entries for `eventIdx`. -/
def withoutEvent (packed : Bytes) (eventIdx : ℕ) : Bytes :=
  (List.range (packed.length / 4)).foldl
    (fun newPacked j =>
      let idx := wordAt packed (j * 4)
      if idx ≠ eventIdx then newPacked ++ u32ToBytes idx else newPacked)
    []

/-! ## Functions -/

/-- `init_index_config` -/
def initIndexConfig (config : IndexConfig) : Fn D Unit := set .indexConfig () config

/-- `set_index_type_enabled` -/
def setIndexTypeEnabled (eventType : Symbol) (enabled : Bool) : Fn D Unit :=
  set .indexTypeEnabled eventType enabled

/-- The loop over the hashes of an event. -/
def appendAll (kwHashes : List D) (eventIdx bucketMax : ℕ) : Fn D Unit :=
  kwHashes.foldlM (fun _ h => bucketAppend h eventIdx bucketMax) ()

variable (sha256 : Bytes → D)

/-- `extract_keywords(env, &metadata, config.min_keyword_len, ..)` -/
def keywordsOf (config : IndexConfig) (metadata : Bytes) : List D :=
  extractKeywords sha256 config.minKeywordLen config.maxKeywordLen config.maxKeywordsPerEvent metadata

/-- `index_event` -/
def indexEvent (eventIdx : ℕ) (eventType : Symbol) (metadata : Bytes) : Fn D Unit := do
  let enabled ← isIndexingEnabledForType eventType
  doIf enabled (do
    let config ← getIndexConfig
    let kwHashes := keywordsOf sha256 config metadata
    doIf (kwHashes ≠ []) (do
      appendAll kwHashes eventIdx config.bucketMaxEntries
      set .eventKeywords eventIdx kwHashes
      let stats ← loadStats
      saveStats { stats with
        totalIndexedEvents := saturatingAdd 32 stats.totalIndexedEvents 1
        totalIndexEntries := saturatingAdd 64 stats.totalIndexEntries kwHashes.length }))

/-- `remove_event_from_index` -/
def removeEventFromIndex (eventIdx : ℕ) : Fn D Unit := do
  let kwHashes := (← get .eventKeywords eventIdx).getD []
  kwHashes.foldlM
    (fun _ h => do
      let packed ← loadBucket h
      doIf (packed ≠ []) (storeBucket h (withoutEvent packed eventIdx)))
    ()
  delete .eventKeywords eventIdx

/-- The body of the loop of `reindex_events`. -/
def reindexEvent (config : IndexConfig) (eventIdx : ℕ) (eventType : Symbol) (metadata : Bytes) :
    Fn D Unit := do
  removeEventFromIndex eventIdx
  let enabled ← isIndexingEnabledForType eventType
  doIf enabled (do
    let kwHashes := keywordsOf sha256 config metadata
    appendAll kwHashes eventIdx config.bucketMaxEntries
    doIf (kwHashes ≠ []) (set .eventKeywords eventIdx kwHashes))

/-- The events of one call of `reindex_events`. -/
def batchOf (start stop : ℕ) : List ℕ :=
  List.range' start (min stop (saturatingAdd 32 start maxReindexBatch) - start)

/-- `reindex_events` -/
def reindexEvents (start stop : ℕ) (loadEvent : ℕ → Option (Symbol × Bytes)) : Fn D ℕ := do
  let config ← getIndexConfig
  let processed ← (batchOf start stop).foldlM
    (fun _ eventIdx => do
      ifSome (loadEvent eventIdx) fun event => reindexEvent sha256 config eventIdx event.1 event.2
      return eventIdx + 1)
    start
  let stats ← loadStats
  saveStats (if processed > stats.lastReindexEvent then { stats with lastReindexEvent := processed }
    else stats)
  return processed

/-! ## Operations -/

/-- The functions that can write. -/
inductive Op where
  | indexEvent (eventIdx : UInt32) (eventType : Symbol) (metadata : Bytes)
  | reindexEvents (start stop : UInt32) (loadEvent : ℕ → Option (Symbol × Bytes))
  | removeEventFromIndex (eventIdx : UInt32)
  | initIndexConfig (config : IndexConfig)
  | setIndexTypeEnabled (eventType : Symbol) (enabled : Bool)

/-- What a function returns. -/
inductive Ret where
  | unit
  | nat (n : ℕ)
  deriving DecidableEq

/-- Runs an operation. -/
def exec : Op → Fn D Ret
  | .indexEvent e y m => do indexEvent sha256 e.toNat y m; return .unit
  | .reindexEvents a b f => return .nat (← reindexEvents sha256 a.toNat b.toNat f)
  | .removeEventFromIndex e => do removeEventFromIndex e.toNat; return .unit
  | .initIndexConfig c => do initIndexConfig c; return .unit
  | .setIndexTypeEnabled y b => do setIndexTypeEnabled y b; return .unit

end

end InvertedIndex
