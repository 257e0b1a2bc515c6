/-
  DeltaLogManager, TimeTravelEngine — a transaction log that many writers commit to
  (`bridge/datalake/deltalake.ts`, `bridge/datalake/timetravel.ts`).

  A writer reads the version of the table, and commits on the condition that it is still the same.
  The requests of all writers come in some order, and those that are refused change nothing.

  * `run_log`: the log holds the commits that were accepted, each once, under successive versions;
  * `commit_after_read`: a commit is accepted just when none was since the version was read;
  * `run_resolved`: what a query of the past finds, and what a diff counts.
-/
import AuditTransparency.Soroban.Lookup
import Mathlib.Algebra.BigOperators.Group.List.Basic
import Mathlib.Algebra.Ring.Nat
import Mathlib.Data.List.Induction

namespace DeltaLog

open Soroban

/-! ## Data -/

structure DeltaAddFileAction where
  path : String
  partitionValues : List (String × String)
  size : ℤ
  modificationTime : ℤ
  dataChange : Bool
  stats : Option String
  deriving DecidableEq

structure DeltaRemoveFileAction where
  path : String
  deletionTimestamp : ℤ
  dataChange : Bool
  deriving DecidableEq

inductive Operation where
  | write
  | merge
  | optimize
  | streamingUpdate
  deriving DecidableEq

inductive IsolationLevel where
  | snapshotIsolation
  | serializable
  deriving DecidableEq

structure DeltaCommitInfo where
  timestamp : ℤ
  operation : Operation
  operationParameters : List (String × String)
  readVersion : ℤ
  isolationLevel : IsolationLevel
  isBlindAppend : Bool
  deriving DecidableEq

inductive DeltaAction where
  | commitInfo (info : DeltaCommitInfo)
  | protocol (minReaderVersion minWriterVersion : ℕ)
  | metaData (createdTime : ℤ)
  | add (file : DeltaAddFileAction)
  | remove (file : DeltaRemoveFileAction)
  deriving DecidableEq

structure DeltaTransactionCommit where
  version : ℤ
  actions : List DeltaAction
  deriving DecidableEq

structure DeltaLogManager where
  commits : List DeltaTransactionCommit
  currentVersion : ℤ
  deriving DecidableEq

/-- The parameters of `commit`. -/
structure CommitParams where
  expectedVersion : ℤ
  operation : Operation
  addedFiles : List DeltaAddFileAction
  removedFiles : List DeltaRemoveFileAction := []
  deriving DecidableEq

structure TimeTravelQueryOptions where
  asOfVersion : Option ℤ
  asOfTimestamp : Option ℤ
  deriving DecidableEq

inductive DeltaError where
  | conflict (expectedVersion currentVersion : ℤ)
  | notFound (options : TimeTravelQueryOptions)
  deriving DecidableEq

structure ResolvedSnapshot where
  snapshotIdentifier : String
  timestamp : ℤ
  deriving DecidableEq

structure SnapshotDiff where
  baseVersion : ℤ
  targetVersion : ℤ
  addedFilesCount : ℕ
  removedFilesCount : ℕ
  recordsDelta : ℤ
  deriving DecidableEq

/-! ## The log -/

/-- `initializeGenesisTable` -/
def initializeGenesisTable (now createdTime : ℤ) : DeltaLogManager where
  commits := [⟨0, [
    .commitInfo ⟨now, .write, [("mode", "Init")], -1, .snapshotIsolation, true⟩,
    .protocol 1 2,
    .metaData createdTime]⟩]
  currentVersion := 0

namespace DeltaLogManager

/-- What `commit` appends. -/
def newCommit (version now : ℤ) (params : CommitParams) : DeltaTransactionCommit where
  version
  actions :=
    .commitInfo ⟨now, params.operation, [("numFiles", toString params.addedFiles.length)],
      params.expectedVersion, .snapshotIsolation, true⟩ ::
    (params.addedFiles.map .add ++ params.removedFiles.map .remove)

/-- `commit` -/
def commit (t : DeltaLogManager) (now : ℤ) (params : CommitParams) :
    Except DeltaError (DeltaTransactionCommit × DeltaLogManager) :=
  if params.expectedVersion ≠ t.currentVersion then
    .error (.conflict params.expectedVersion t.currentVersion)
  else
    let nextVersion := t.currentVersion + 1
    let c := newCommit nextVersion now params
    .ok (c, { commits := t.commits ++ [c], currentVersion := nextVersion })

/-- `getCommitByVersion` -/
def getCommitByVersion (t : DeltaLogManager) (version : ℤ) : Option DeltaTransactionCommit :=
  t.commits.find? (·.version = version)

end DeltaLogManager

/-- The first `commitInfo` of a commit. -/
def DeltaTransactionCommit.info (c : DeltaTransactionCommit) : Option DeltaCommitInfo :=
  c.actions.findSome? fun a => match a with
    | .commitInfo info => some info
    | _ => none

namespace DeltaLogManager

/-- `getCommitAsOfTimestamp` -/
def getCommitAsOfTimestamp (t : DeltaLogManager) (timestamp : ℤ) : Option DeltaTransactionCommit :=
  (t.commits.filter fun c => c.info.any (·.timestamp ≤ timestamp)).getLast?

/-! ## Time travel -/

/-- The commit that the options of `resolveSnapshot` ask for. -/
def chosenCommit (t : DeltaLogManager) (options : TimeTravelQueryOptions) : Option DeltaTransactionCommit :=
  match options.asOfTimestamp.filter (· ≠ 0), options.asOfVersion with
  | some timestamp, _ => t.getCommitAsOfTimestamp timestamp
  | none, some version => t.getCommitByVersion version
  | none, none => t.getCommitByVersion t.currentVersion

/-- `resolveSnapshot`, of a Delta table. -/
def resolveSnapshot (t : DeltaLogManager) (now : ℤ) (options : TimeTravelQueryOptions) :
    Except DeltaError ResolvedSnapshot :=
  match t.chosenCommit options with
  | none => .error (.notFound options)
  | some c => .ok ⟨toString c.version, (c.info.map (·.timestamp)).getD now⟩

end DeltaLogManager

def DeltaAction.isAdd : DeltaAction → Bool
  | .add _ => true
  | _ => false

def DeltaAction.isRemove : DeltaAction → Bool
  | .remove _ => true
  | _ => false

/-- `computeSnapshotDiff`, of a Delta table. -/
def DeltaLogManager.computeSnapshotDiff (t : DeltaLogManager) (baseVersion targetVersion : ℤ) : SnapshotDiff :=
  let inBetween := t.commits.filter fun c => c.version > baseVersion ∧ c.version ≤ targetVersion
  let added := (inBetween.flatMap (·.actions)).countP DeltaAction.isAdd
  let removed := (inBetween.flatMap (·.actions)).countP DeltaAction.isRemove
  { baseVersion, targetVersion
    addedFilesCount := added
    removedFilesCount := removed
    recordsDelta := (added - removed) * 500 }

/-! ## Many writers -/

/-- A request to commit, at the time at which it is served. -/
structure Request where
  now : ℤ
  params : CommitParams
  deriving DecidableEq

/-- The table after a request, which may be refused. -/
def serve (t : DeltaLogManager) (r : Request) : DeltaLogManager :=
  match t.commit r.now r.params with
  | .ok (_, t') => t'
  | .error _ => t

/-- The requests of all writers, in the order in which they are served. -/
def serveAll (t : DeltaLogManager) (l : List Request) : DeltaLogManager := l.foldl serve t

/-- The request is accepted. -/
def Accepts (t : DeltaLogManager) (r : Request) : Prop := r.params.expectedVersion = t.currentVersion

instance (t : DeltaLogManager) (r : Request) : Decidable (Accepts t r) :=
  inferInstanceAs (Decidable (_ = _))

/-- The requests that are accepted. -/
def accepted (t : DeltaLogManager) : List Request → List Request
  | [] => []
  | r :: l => (if Accepts t r then [r] else []) ++ accepted (serve t r) l

section
variable {t : DeltaLogManager} {r : Request} {l l₁ l₂ : List Request} {now created : ℤ}

theorem commit_ok_iff {params : CommitParams} :
    (∃ c t', t.commit now params = .ok (c, t')) ↔ params.expectedVersion = t.currentVersion := by
  rw [DeltaLogManager.commit]
  split_ifs with h
  · exact iff_of_false (fun ⟨c, t', h'⟩ => by cases h') h
  · exact iff_of_true ⟨_, _, rfl⟩ (not_not.1 h)

theorem serve_of_accepts (h : Accepts t r) :
    serve t r = ⟨t.commits ++ [DeltaLogManager.newCommit (t.currentVersion + 1) r.now r.params],
      t.currentVersion + 1⟩ := by
  rw [Accepts] at h
  rw [serve, DeltaLogManager.commit, if_neg (not_not.2 h)]

theorem serve_of_not (h : ¬Accepts t r) : serve t r = t := by
  rw [Accepts] at h
  rw [serve, DeltaLogManager.commit, if_pos h]

theorem serveAll_concat : serveAll t (l ++ [r]) = serve (serveAll t l) r := by
  rw [serveAll, List.foldl_append]
  rfl

theorem accepted_append : accepted t (l₁ ++ l₂) = accepted t l₁ ++ accepted (serveAll t l₁) l₂ := by
  induction l₁ generalizing t with
  | nil => rfl
  | cons r l₁ ih => rw [List.cons_append, accepted, ih, accepted, List.append_assoc]; rfl

theorem accepted_concat :
    accepted t (l ++ [r]) = accepted t l ++ if Accepts (serveAll t l) r then [r] else [] := by
  rw [accepted_append, accepted, accepted, List.append_nil]

/-- The version counts what was accepted. -/
theorem currentVersion_serveAll :
    (serveAll t l).currentVersion = t.currentVersion + (accepted t l).length := by
  induction l using List.reverseRecOn with
  | nil => simp [serveAll, accepted]
  | append_singleton l r ih =>
    rw [serveAll_concat, accepted_concat]
    by_cases h : Accepts (serveAll t l) r
    · rw [serve_of_accepts h, if_pos h, ih, List.length_append, List.length_singleton]
      push_cast
      rw [add_assoc]
    · rw [serve_of_not h, if_neg h, List.append_nil, ih]

/-- **A commit is accepted just when no other was since the version was read**, by whoever and however
    often it was tried; a commit that is refused changes nothing. -/
theorem commit_after_read {params : CommitParams} (t : DeltaLogManager) (l₁ l₂ : List Request) (now : ℤ)
    (hread : params.expectedVersion = (serveAll t l₁).currentVersion) :
    (∃ c t', (serveAll t (l₁ ++ l₂)).commit now params = .ok (c, t')) ↔ accepted (serveAll t l₁) l₂ = [] := by
  have happend : serveAll t (l₁ ++ l₂) = serveAll (serveAll t l₁) l₂ := List.foldl_append
  rw [commit_ok_iff, happend, currentVersion_serveAll, hread, left_eq_add, Int.natCast_eq_zero,
    List.length_eq_zero_iff]

/-- Two writers read version 0, and one of them commits first; it reads version 1 and commits again. -/
def raced : List Request :=
  [⟨10, ⟨0, .write, [⟨"a", [], 1, 9, true, none⟩], []⟩⟩,
    ⟨12, ⟨0, .merge, [⟨"b", [], 1, 9, true, none⟩], []⟩⟩,
    ⟨11, ⟨1, .write, [⟨"c", [], 1, 9, true, none⟩], [⟨"a", 11, true⟩]⟩⟩]

theorem commit_after_read_raced :
    ¬∃ c t', (serveAll (initializeGenesisTable 5 5) ([] ++ raced)).commit 20 ⟨0, .write, [], []⟩ =
      .ok (c, t') := by
  rw [commit_after_read (initializeGenesisTable 5 5) [] raced 20 rfl]
  decide +kernel

/-- The commit of the `i`-th request that is accepted. -/
def committed (i : ℕ) (r : Request) : DeltaTransactionCommit :=
  DeltaLogManager.newCommit (i + 1) r.now r.params

theorem version_serveAll (now created : ℤ) (l : List Request) :
    (serveAll (initializeGenesisTable now created) l).currentVersion =
      (accepted (initializeGenesisTable now created) l).length := by
  rw [currentVersion_serveAll]
  exact zero_add _

theorem commits_serveAll (now created : ℤ) (l : List Request) :
    (serveAll (initializeGenesisTable now created) l).commits =
      (initializeGenesisTable now created).commits ++
        (accepted (initializeGenesisTable now created) l).mapIdx committed := by
  induction l using List.reverseRecOn with
  | nil => simp [serveAll, accepted]
  | append_singleton l r ih =>
    rw [serveAll_concat, accepted_concat]
    by_cases h : Accepts (serveAll (initializeGenesisTable now created) l) r
    · rw [serve_of_accepts h, if_pos h, List.mapIdx_concat, ← List.append_assoc, ← ih, version_serveAll]
      rfl
    · rw [serve_of_not h, if_neg h, List.append_nil, ih]

/-- **The log is what was accepted**: after the genesis every accepted request has one commit, in the order
    in which they were served, and the `i`-th of them had read version `i`. -/
theorem run_log (now created : ℤ) (l : List Request) :
    (serveAll (initializeGenesisTable now created) l).commits =
        (initializeGenesisTable now created).commits ++
          (accepted (initializeGenesisTable now created) l).mapIdx committed ∧
      (serveAll (initializeGenesisTable now created) l).currentVersion =
        (accepted (initializeGenesisTable now created) l).length ∧
      ∀ (i : ℕ) (r : Request), (accepted (initializeGenesisTable now created) l)[i]? = some r →
        r.params.expectedVersion = i := by
  refine ⟨commits_serveAll .., version_serveAll .., ?_⟩
  induction l using List.reverseRecOn with
  | nil => simp [accepted]
  | append_singleton l r ih =>
    rw [accepted_concat]
    by_cases h : Accepts (serveAll (initializeGenesisTable now created) l) r
    · rw [if_pos h]
      intro i q hq
      rcases getElem?_concat_cases hq with hq | ⟨rfl, rfl⟩
      · exact ih i q hq
      · rw [Accepts, version_serveAll] at h
        exact h
    · rw [if_neg h, List.append_nil]
      exact ih

/-! ## The past -/

/-- The times of the versions. -/
def timesOf (now : ℤ) (rs : List Request) : List ℤ := now :: rs.map (·.now)

/-- Every version has its place and its time. -/
structure Dated (times : List ℤ) (cs : List DeltaTransactionCommit) : Prop where
  version : ∀ (i : ℕ) (c : DeltaTransactionCommit), cs[i]? = some c →
    c.version = i ∧ c.info.map (·.timestamp) = times[i]?
  length : cs.length = times.length

theorem info_newCommit {version : ℤ} {params : CommitParams} :
    (DeltaLogManager.newCommit version now params).info.map (·.timestamp) = some now := rfl

theorem dated_serveAll (now created : ℤ) (l : List Request) :
    Dated (timesOf now (accepted (initializeGenesisTable now created) l))
      (serveAll (initializeGenesisTable now created) l).commits := by
  rw [commits_serveAll]
  constructor
  · intro i c hc
    cases i with
    | zero =>
      obtain rfl := Option.some.inj hc
      exact ⟨rfl, rfl⟩
    | succ i =>
      have hc' : ((accepted (initializeGenesisTable now created) l).mapIdx committed)[i]? = some c := hc
      rw [List.getElem?_mapIdx, Option.map_eq_some_iff] at hc'
      obtain ⟨r, hr, rfl⟩ := hc'
      refine ⟨rfl, ?_⟩
      rw [committed, info_newCommit, timesOf, List.getElem?_cons_succ, List.getElem?_map, hr]
      rfl
  · simp [timesOf, initializeGenesisTable]

/-- The last entry that passes a test. -/
theorem getLast?_filter_eq_some {α : Type} {p : α → Bool} {cs : List α} {c : α} :
    (cs.filter p).getLast? = some c ↔ ∃ i : ℕ, cs[i]? = some c ∧ p c = true ∧
      ∀ (j : ℕ) c', cs[j]? = some c' → p c' = true → j ≤ i := by
  induction cs using List.reverseRecOn with
  | nil => simp
  | append_singleton cs a ih =>
    rw [List.filter_append]
    by_cases ha : p a = true
    · rw [List.filter_cons_of_pos ha, List.filter_nil, List.getLast?_concat]
      constructor
      · intro h
        obtain rfl := Option.some.inj h
        refine ⟨cs.length, List.getElem?_concat_length, ha, fun j c' hj _ => ?_⟩
        have hlt := (List.getElem?_eq_some_iff.1 hj).1
        rw [List.length_append, List.length_singleton] at hlt
        exact Nat.le_of_lt_succ hlt
      · rintro ⟨i, hi, -, hlast⟩
        rcases getElem?_concat_cases hi with hi | ⟨rfl, rfl⟩
        · have := hlast cs.length a List.getElem?_concat_length ha
          have := (List.getElem?_eq_some_iff.1 hi).1
          omega
        · rfl
    · rw [List.filter_cons_of_neg ha, List.filter_nil, List.append_nil, ih]
      constructor
      · rintro ⟨i, hi, hc, hlast⟩
        refine ⟨i, getElem?_concat_of_some hi, hc, fun j c' hj hc' => ?_⟩
        rcases getElem?_concat_cases hj with hj | ⟨rfl, rfl⟩
        · exact hlast j c' hj hc'
        · exact absurd hc' ha
      · rintro ⟨i, hi, hc, hlast⟩
        rcases getElem?_concat_cases hi with hi | ⟨rfl, rfl⟩
        · exact ⟨i, hi, hc, fun j c' hj => hlast j c' (getElem?_concat_of_some hj)⟩
        · exact absurd hc ha

section
variable {times : List ℤ} {t : DeltaLogManager} {v : ℤ}

/-- The commit of a version. -/
theorem Dated.getCommitByVersion (h : Dated times t.commits) {c : DeltaTransactionCommit} :
    t.getCommitByVersion v = some c ↔ ∃ i : ℕ, v = i ∧ t.commits[i]? = some c := by
  rw [DeltaLogManager.getCommitByVersion]
  constructor
  · intro hc
    obtain ⟨i, hi⟩ := List.mem_iff_getElem?.1 (List.mem_of_find?_eq_some hc)
    have hv := List.find?_some hc
    refine ⟨i, ?_, hi⟩
    rw [← (h.version i c hi).1]
    exact (of_decide_eq_true hv).symm
  · rintro ⟨i, rfl, hi⟩
    rcases hfind : t.commits.find? (·.version = (i : ℤ)) with _ | c'
    · have := List.find?_eq_none.1 hfind c (List.mem_of_getElem? hi)
      exact absurd (by simpa using (h.version i c hi).1) this
    · obtain ⟨j, hj⟩ := List.mem_iff_getElem?.1 (List.mem_of_find?_eq_some hfind)
      have hv := List.find?_some hfind
      rw [decide_eq_true_eq, (h.version j c' hj).1, Int.natCast_inj] at hv
      rw [hv, hi] at hj
      rw [hfind, ← hj]

/-- The commit of a time. -/
theorem Dated.getCommitAsOfTimestamp (h : Dated times t.commits) {c : DeltaTransactionCommit} :
    t.getCommitAsOfTimestamp v = some c ↔ ∃ (i : ℕ) (τ : ℤ), t.commits[i]? = some c ∧
      times[i]? = some τ ∧ τ ≤ v ∧ ∀ (j : ℕ) (τ' : ℤ), times[j]? = some τ' → τ' ≤ v → j ≤ i := by
  rw [DeltaLogManager.getCommitAsOfTimestamp, getLast?_filter_eq_some]
  have hany : ∀ (i : ℕ) c, t.commits[i]? = some c →
      (c.info.any (·.timestamp ≤ v) = true ↔ ∃ τ : ℤ, times[i]? = some τ ∧ τ ≤ v) := by
    intro i c hc
    rw [← (h.version i c hc).2]
    cases c.info <;> simp
  have hthere : ∀ (j : ℕ) (τ : ℤ), times[j]? = some τ → ∃ c, t.commits[j]? = some c := by
    intro j τ hj
    have hlt := (List.getElem?_eq_some_iff.1 hj).1
    rw [← h.length] at hlt
    exact ⟨_, List.getElem?_eq_getElem hlt⟩
  constructor
  · rintro ⟨i, hi, hc, hlast⟩
    obtain ⟨τ, hτ, hle⟩ := (hany i c hi).1 hc
    refine ⟨i, τ, hi, hτ, hle, fun j τ' hj hle' => ?_⟩
    obtain ⟨c', hc'⟩ := hthere j τ' hj
    exact hlast j c' hc' ((hany j c' hc').2 ⟨τ', hj, hle'⟩)
  · rintro ⟨i, τ, hi, hτ, hle, hlast⟩
    refine ⟨i, hi, (hany i c hi).2 ⟨τ, hτ, hle⟩, fun j c' hj hc' => ?_⟩
    obtain ⟨τ', hτ', hle'⟩ := (hany j c' hj).1 hc'
    exact hlast j τ' hτ' hle'

/-- What a commit is resolved to. -/
def resolvedTo (clock : ℤ) (c : DeltaTransactionCommit) : ResolvedSnapshot :=
  ⟨toString c.version, (c.info.map (·.timestamp)).getD clock⟩

theorem resolveSnapshot_iff {clock : ℤ} {options : TimeTravelQueryOptions} {r : ResolvedSnapshot} :
    t.resolveSnapshot clock options = .ok r ↔
      ∃ c, t.chosenCommit options = some c ∧ resolvedTo clock c = r := by
  rw [DeltaLogManager.resolveSnapshot]
  cases t.chosenCommit options <;> simp [resolvedTo]

theorem filter_ne_zero {T : Option ℤ} (hT : T = none ∨ T = some 0) : T.filter (· ≠ 0) = none := by
  rcases hT with rfl | rfl <;> rfl

/-- A version and its time. -/
theorem Dated.resolvedTo_iff (h : Dated times t.commits) {i : ℕ} {c : DeltaTransactionCommit} {τ clock : ℤ}
    {id : String} (hi : t.commits[i]? = some c) :
    resolvedTo clock c = ⟨id, τ⟩ ↔ id = toString (i : ℤ) ∧ times[i]? = some τ := by
  obtain ⟨hversion, htime⟩ := h.version i c hi
  have hlt := (List.getElem?_eq_some_iff.1 hi).1
  rw [h.length] at hlt
  rw [resolvedTo, htime, hversion, List.getElem?_eq_getElem hlt, ResolvedSnapshot.mk.injEq, eq_comm (b := id)]
  simp

/-- What a version is resolved to. -/
theorem Dated.resolved_version (h : Dated times t.commits) {τ clock : ℤ} {id : String} :
    (∃ c, t.getCommitByVersion v = some c ∧ resolvedTo clock c = ⟨id, τ⟩) ↔
      ∃ i : ℕ, v = i ∧ id = toString (i : ℤ) ∧ times[i]? = some τ := by
  constructor
  · rintro ⟨c, hc, hr⟩
    obtain ⟨i, hv, hi⟩ := h.getCommitByVersion.1 hc
    exact ⟨i, hv, (h.resolvedTo_iff hi).1 hr⟩
  · rintro ⟨i, hv, hid, hτ⟩
    have hlt := (List.getElem?_eq_some_iff.1 hτ).1
    rw [← h.length] at hlt
    have hi := List.getElem?_eq_getElem hlt
    exact ⟨_, h.getCommitByVersion.2 ⟨i, hv, hi⟩, (h.resolvedTo_iff hi).2 ⟨hid, hτ⟩⟩

end

/-- **What a query of the past finds**, in every log the requests leave.  A time finds the last version that
    is not later, whatever the clock did, a version itself, and no option, or time zero, the present. -/
theorem run_resolved (now created clock : ℤ) (l : List Request) :
    let t := serveAll (initializeGenesisTable now created) l
    let times := timesOf now (accepted (initializeGenesisTable now created) l)
    ∀ id τ,
      (∀ w T, T ≠ 0 → (t.resolveSnapshot clock ⟨w, some T⟩ = .ok ⟨id, τ⟩ ↔
        ∃ i : ℕ, id = toString (i : ℤ) ∧ times[i]? = some τ ∧ τ ≤ T ∧
          ∀ (j : ℕ) τ', times[j]? = some τ' → τ' ≤ T → j ≤ i)) ∧
      (∀ v T, T = none ∨ T = some 0 → (t.resolveSnapshot clock ⟨some v, T⟩ = .ok ⟨id, τ⟩ ↔
        ∃ i : ℕ, v = i ∧ id = toString (i : ℤ) ∧ times[i]? = some τ)) ∧
      ∀ T, T = none ∨ T = some 0 → (t.resolveSnapshot clock ⟨none, T⟩ = .ok ⟨id, τ⟩ ↔
        id = toString t.currentVersion ∧ times.getLast? = some τ) := by
  intro t times id τ
  have hdated : Dated times t.commits := dated_serveAll now created l
  refine ⟨fun w T hT => ?_, fun v T hT => ?_, fun T hT => ?_⟩
  · have hfilter : (some T).filter (· ≠ 0) = some T := by simp [hT]
    simp only [resolveSnapshot_iff, DeltaLogManager.chosenCommit, hfilter]
    constructor
    · rintro ⟨c, hc, hr⟩
      obtain ⟨i, τ', hi, hτ', hle, hlast⟩ := hdated.getCommitAsOfTimestamp.1 hc
      obtain ⟨hid, hτ⟩ := (hdated.resolvedTo_iff hi).1 hr
      rw [hτ', Option.some.injEq] at hτ
      subst hτ
      exact ⟨i, hid, hτ', hle, hlast⟩
    · rintro ⟨i, hid, hτ, hle, hlast⟩
      have hlt := (List.getElem?_eq_some_iff.1 hτ).1
      rw [← hdated.length] at hlt
      have hi := List.getElem?_eq_getElem hlt
      exact ⟨_, hdated.getCommitAsOfTimestamp.2 ⟨i, τ, hi, hτ, hle, hlast⟩,
        (hdated.resolvedTo_iff hi).2 ⟨hid, hτ⟩⟩
  · simp only [resolveSnapshot_iff, DeltaLogManager.chosenCommit, filter_ne_zero hT]
    exact hdated.resolved_version
  · simp only [resolveSnapshot_iff, DeltaLogManager.chosenCommit, filter_ne_zero hT]
    rw [hdated.resolved_version]
    have hversion : t.currentVersion = (times.length - 1 : ℕ) := by
      rw [version_serveAll]
      simp [times, timesOf]
    rw [hversion, List.getLast?_eq_getElem?]
    constructor
    · rintro ⟨i, hi, hid, hτ⟩
      rw [Int.natCast_inj] at hi
      rw [hi]
      exact ⟨hid, hτ⟩
    · rintro ⟨hid, hτ⟩
      exact ⟨_, rfl, hid, hτ⟩

theorem run_resolved_raced :
    (serveAll (initializeGenesisTable 5 5) raced).resolveSnapshot 20 ⟨some 1, none⟩ = .ok ⟨"1", 10⟩ :=
  ((run_resolved 5 5 20 raced "1" 10).2.1 1 none (.inl rfl)).2 ⟨1, rfl, rfl, rfl⟩

/-! ## Diffs -/

/-- The sum over the requests whose versions are after `a` and not after `b`. -/
def sumBetween (f : Request → ℕ) (rs : List Request) (a b : ℤ) : ℕ :=
  (((rs.drop a.toNat).take (b.toNat - a.toNat)).map f).sum

theorem sumBetween_concat (f : Request → ℕ) (rs : List Request) (r : Request) (a b : ℤ) :
    sumBetween f (rs ++ [r]) a b =
      sumBetween f rs a b + if a < rs.length + 1 ∧ (rs.length : ℤ) + 1 ≤ b then f r else 0 := by
  have hlast : (([r].drop (a.toNat - rs.length)).take (b.toNat - a.toNat - (rs.length - a.toNat))) =
      if a < rs.length + 1 ∧ (rs.length : ℤ) + 1 ≤ b then [r] else [] := by
    split_ifs with h
    · have hzero : a.toNat - rs.length = 0 := by omega
      rw [hzero, List.drop_zero, List.take_of_length_le]
      rw [List.length_singleton]
      omega
    · rcases Nat.lt_or_ge rs.length a.toNat with hlt | hge
      · rw [List.drop_eq_nil_of_le, List.take_nil]
        rw [List.length_singleton]
        omega
      · have hzero : b.toNat - a.toNat - (rs.length - a.toNat) = 0 := by omega
        rw [hzero, List.take_zero]
  rw [sumBetween, List.drop_append, List.take_append, List.length_drop, hlast, List.map_append, List.sum_append,
    ← sumBetween]
  split_ifs <;> simp

/-- What the commits between two versions have of a kind of action. -/
theorem countP_between (p : DeltaAction → Bool) (f : Request → ℕ) (rs : List Request) (a b : ℤ)
    (hf : ∀ i r, (committed i r).actions.countP p = f r) :
    (((rs.mapIdx committed).filter fun c => c.version > a ∧ c.version ≤ b).flatMap (·.actions)).countP p =
      sumBetween f rs a b := by
  induction rs using List.reverseRecOn with
  | nil => simp [sumBetween]
  | append_singleton rs r ih =>
    rw [List.mapIdx_concat, List.filter_append, List.flatMap_append, List.countP_append, ih, sumBetween_concat]
    congr 1
    by_cases h : a < rs.length + 1 ∧ (rs.length : ℤ) + 1 ≤ b
    · rw [if_pos h, List.filter_cons_of_pos (by simpa [committed, DeltaLogManager.newCommit] using h),
        List.filter_nil, List.flatMap_singleton, hf]
    · rw [if_neg h, List.filter_cons_of_neg (by simpa [committed, DeltaLogManager.newCommit] using h)]
      rfl

theorem sumBetween_add (f : Request → ℕ) (rs : List Request) {a m b : ℤ} (ham : a ≤ m) (hmb : m ≤ b) :
    sumBetween f rs a b = sumBetween f rs a m + sumBetween f rs m b := by
  have hlen : b.toNat - a.toNat = (m.toNat - a.toNat) + (b.toNat - m.toNat) := by omega
  have hdrop : a.toNat + (m.toNat - a.toNat) = m.toNat := by omega
  rw [sumBetween, hlen, List.take_add, List.drop_drop, hdrop, List.map_append, List.sum_append]
  rfl

/-- The genesis has no files. -/
theorem countP_serveAll (p : DeltaAction → Bool) (f : Request → ℕ) (now created : ℤ) (l : List Request)
    (a b : ℤ) (hp : ∀ c ∈ (initializeGenesisTable now created).commits, c.actions.countP p = 0)
    (hf : ∀ i r, (committed i r).actions.countP p = f r) :
    (((serveAll (initializeGenesisTable now created) l).commits.filter fun c =>
        c.version > a ∧ c.version ≤ b).flatMap (·.actions)).countP p =
      sumBetween f (accepted (initializeGenesisTable now created) l) a b := by
  rw [commits_serveAll, List.filter_append, List.flatMap_append, List.countP_append,
    countP_between p f _ a b hf, List.countP_flatMap, Nat.add_eq_right]
  refine List.sum_eq_zero fun n hn => ?_
  obtain ⟨c, hc, rfl⟩ := List.mem_map.1 hn
  exact hp c (List.mem_of_mem_filter hc)

section
variable (now created : ℤ) (l : List Request) (a b : ℤ)

theorem added_serveAll :
    ((serveAll (initializeGenesisTable now created) l).computeSnapshotDiff a b).addedFilesCount =
      sumBetween (·.params.addedFiles.length) (accepted (initializeGenesisTable now created) l) a b := by
  refine countP_serveAll _ _ now created l a b ?_ fun i r => ?_
  · simp [initializeGenesisTable, DeltaAction.isAdd]
  · simp [committed, DeltaLogManager.newCommit, List.countP_map, Function.comp_def, DeltaAction.isAdd]

theorem removed_serveAll :
    ((serveAll (initializeGenesisTable now created) l).computeSnapshotDiff a b).removedFilesCount =
      sumBetween (·.params.removedFiles.length) (accepted (initializeGenesisTable now created) l) a b := by
  refine countP_serveAll _ _ now created l a b ?_ fun i r => ?_
  · simp [initializeGenesisTable, DeltaAction.isRemove]
  · simp [committed, DeltaLogManager.newCommit, List.countP_map, Function.comp_def, DeltaAction.isRemove]

end

/-- **What a diff counts**: the files that the commits accepted between the versions have added and removed.
    A diff is that to any version in between and on from there. -/
theorem run_diffed (now created : ℤ) (l : List Request) (a b : ℤ) :
    let t := serveAll (initializeGenesisTable now created) l
    let rs := accepted (initializeGenesisTable now created) l
    (t.computeSnapshotDiff a b).addedFilesCount = sumBetween (·.params.addedFiles.length) rs a b ∧
      (t.computeSnapshotDiff a b).removedFilesCount = sumBetween (·.params.removedFiles.length) rs a b ∧
      ∀ m, a ≤ m → m ≤ b →
        (t.computeSnapshotDiff a b).addedFilesCount =
            (t.computeSnapshotDiff a m).addedFilesCount + (t.computeSnapshotDiff m b).addedFilesCount ∧
          (t.computeSnapshotDiff a b).removedFilesCount =
            (t.computeSnapshotDiff a m).removedFilesCount + (t.computeSnapshotDiff m b).removedFilesCount ∧
          (t.computeSnapshotDiff a b).recordsDelta =
            (t.computeSnapshotDiff a m).recordsDelta + (t.computeSnapshotDiff m b).recordsDelta := by
  intro t rs
  refine ⟨added_serveAll now created l a b, removed_serveAll now created l a b, fun m ham hmb => ?_⟩
  have hadded : (t.computeSnapshotDiff a b).addedFilesCount =
      (t.computeSnapshotDiff a m).addedFilesCount + (t.computeSnapshotDiff m b).addedFilesCount := by
    simp only [t, added_serveAll]
    exact sumBetween_add _ _ ham hmb
  have hremoved : (t.computeSnapshotDiff a b).removedFilesCount =
      (t.computeSnapshotDiff a m).removedFilesCount + (t.computeSnapshotDiff m b).removedFilesCount := by
    simp only [t, removed_serveAll]
    exact sumBetween_add _ _ ham hmb
  refine ⟨hadded, hremoved, ?_⟩
  have hdelta : ∀ a b, (t.computeSnapshotDiff a b).recordsDelta =
      (((t.computeSnapshotDiff a b).addedFilesCount : ℤ) - (t.computeSnapshotDiff a b).removedFilesCount) * 500 :=
    fun _ _ => rfl
  rw [hdelta, hdelta, hdelta, hadded, hremoved]
  push_cast
  omega

theorem run_diffed_raced :
    ((serveAll (initializeGenesisTable 5 5) raced).computeSnapshotDiff 0 2).addedFilesCount = 1 + 1 :=
  ((run_diffed 5 5 raced 0 2).2.2 1 (by decide) (by decide)).1

end

end DeltaLog
