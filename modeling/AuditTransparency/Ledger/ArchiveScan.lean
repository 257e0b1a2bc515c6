/-
  AuditLedger — the scan of `archive_events`.

  The scan goes on where the last one has stopped, and stops at the first event that is not older
  than the cutoff.  As the events of the log are in the order of their times, the archive is a
  beginning of the log (`Scanned`), and a call archives every event before its cutoff.

  * `post_scanEvents`: what one call does, from the invariant of the loop (`Scanning`);
  * `history_scanned`: every run of logging and archiving keeps the archive so.
-/
import AuditTransparency.Ledger.Refinement

namespace AuditLedger

open Soroban
open Soroban.Call hiding hasPers publish

variable {D : Type} [DecidableEq D]

/-! ## Queries -/

structure ArchiveStats where
  totalArchived : ℕ
  totalCompressed : ℕ
  totalOffchain : ℕ
  deriving DecidableEq

/-- `get_archive_stats` -/
def getArchiveStats : Fn D ArchiveStats := do
  requireInitialized
  return {
    totalArchived := (← get .archivedTotalEvents ()).getD 0
    totalCompressed := (← get .archivedCompressedCount ()).getD 0
    totalOffchain := (← get .archivedOffchainCount ()).getD 0 }

/-- One round of the loop of `get_archived_event_count`. -/
def countArchived (cnt i : ℕ) : Fn D ℕ := do
  let id ← get .archivedEventOrder i
  onSome id
    (fun id => do
      let data ← get .archivedEventData id
      let ref ← get .archivedEventRefKey id
      return if data.isSome ∨ ref.isSome then cnt + 1 else cnt)
    (pure cnt)

/-- `get_archived_event_count` -/
def getArchivedEventCount : Fn D ℕ := do
  let total := (← get .archivedTotalEvents ()).getD 0
  (List.range total).foldlM countArchived 0

/-! ## The archive as a beginning of the log -/

variable {H : Host D} {env : Env} {s s' : State D} {L : List (Entry D)} {r : Ret D} {cutoff n : ℕ}
  {config : ArchiveConfig} {id : D} {evt : Event D}

/-- `ArchivedTotalEvents` -/
def archivedTotal (s : State D) : ℕ := (s.inst .archivedTotalEvents ()).getD 0

/-- The id has a copy in the archive, or a reference to one. -/
def HasCopy (s : State D) (id : D) : Prop :=
  (s.inst .archivedEventData id).isSome ∨ (s.inst .archivedEventRefKey id).isSome

/-- The archive lists the first `n` entries of the log, and these are the ones that are marked. -/
structure Lists (s : State D) (L : List (Entry D)) (n : ℕ) : Prop where
  le : n ≤ L.length
  order : ∀ i < n, s.inst .archivedEventOrder i = L[i]?.map Prod.fst
  flag : ∀ d, (s.inst .eventArchivedFlag d).isSome ↔ ∃ i p, i < n ∧ L[i]? = some p ∧ p.1 = d
  copy : ∀ i p, i < n → L[i]? = some p → HasCopy s p.1

/-- **The invariant of the archive.** -/
structure Scanned (s : State D) (L : List (Entry D)) : Prop where
  lists : Lists s L (archivedTotal s)
  cursor : (s.inst .archiveScanCursor ()).getD 0 = archivedTotal s
  compressed : (s.inst .archivedCompressedCount ()).getD 0 ≤ archivedTotal s
  offchain : (s.inst .archivedOffchainCount ()).getD 0 ≤ archivedTotal s

/-- The keys it reads. -/
abbrev archiveKeys : List DataKey :=
  [.archivedEventOrder, .eventArchivedFlag, .archivedEventData, .archivedEventRefKey, .archivedTotalEvents,
    .archiveScanCursor, .archivedCompressedCount, .archivedOffchainCount]

/-- The log may grow. -/
theorem Scanned.grow (h : Scanned s L) (M : List (Entry D))
    (hs : ∀ f ∈ archiveKeys, s'.inst f = s.inst f) : Scanned s' (L ++ M) := by
  have htotal : archivedTotal s' = archivedTotal s := by rw [archivedTotal, hs _ (by simp), archivedTotal]
  have hget : ∀ {i}, i < archivedTotal s → (L ++ M)[i]? = L[i]? := fun hi =>
    List.getElem?_append_left (hi.trans_le h.lists.le)
  refine ⟨⟨?_, fun i hi => ?_, fun d => ?_, fun i p hi hp => ?_⟩, ?_, ?_, ?_⟩
  · rw [htotal, List.length_append]
    exact h.lists.le.trans (Nat.le_add_right ..)
  · rw [htotal] at hi
    rw [hs _ (by simp), h.lists.order i hi, hget hi]
  · rw [hs _ (by simp), h.lists.flag, htotal]
    refine exists_congr fun i => exists_congr fun p => and_congr_right fun hi => ?_
    rw [hget hi]
  · rw [htotal] at hi
    rw [HasCopy, hs _ (by simp), hs _ (by simp)]
    exact h.lists.copy i p hi (hget hi ▸ hp)
  · rw [hs _ (by simp), htotal]
    exact h.cursor
  · rw [hs _ (by simp), htotal]
    exact h.compressed
  · rw [hs _ (by simp), htotal]
    exact h.offchain

/-- It reads these keys only. -/
theorem Scanned.of_eq (h : Scanned s L) (hs : ∀ f ∈ archiveKeys, s'.inst f = s.inst f) :
    Scanned s' L := by
  have hgrow := h.grow [] hs
  rwa [List.append_nil] at hgrow

/-! ## One event -/

/-- What `archive_events` changes besides the mark and the order. -/
abbrev copyKeys : List DataKey :=
  [.archivedEventHeaderKey, .archivedEventMetadata, .archivedEventRefKey, .archivedEventData]

/-- The counters of a scan, after a copy was made. -/
structure Copied (acc acc' : ArchiveScan) : Prop where
  i : acc'.i = acc.i
  archived : acc'.archived = acc.archived
  moved : acc'.moved = acc.moved
  stopped : acc'.stopped = acc.stopped
  compressed : acc'.compressedCount ≤ acc.compressedCount + 1
  offchain : acc'.offchainCount ≤ acc.offchainCount + 1

theorem post_archiveCopy_copied {acc : ArchiveScan} :
    Post (archiveCopy H config acc id evt) (fun acc' s' => Copied acc acc' ∧ s.Frame copyKeys s' ∧
      HasCopy s' id ∧ ∀ d, HasCopy s d → HasCopy s' d) env s := by
  refine Post.with_frame (L := layout D) (W := copyKeys) ?_
  unfold archiveCopy
  refine post_bind_reads fun header _ => post_bind.2 ?_
  refine Post.with_frame (L := layout D) (W := [.archivedEventHeaderKey]) fun _ s₀ _ hf => ?_
  have hdata : s₀.inst .archivedEventData = s.inst .archivedEventData := hf.inst (notMem_of_eval rfl)
  have href : s₀.inst .archivedEventRefKey = s.inst .archivedEventRefKey := hf.inst (notMem_of_eval rfl)
  have hkeep : ∀ d, HasCopy s d ↔ HasCopy s₀ d := fun d => by rw [HasCopy, HasCopy, hdata, href]
  refine post_bind_reads fun metadata _ => post_bind.2 ?_
  have hcount : Post (if config.compression = 1 then addChecked 32 acc.compressedCount 1
      else pure acc.compressedCount : Fn D ℕ) (fun n s₁ => s₁ = s₀ ∧ n ≤ acc.compressedCount + 1)
      env s₀ := by
    refine post_ite.2 ⟨fun _ => post_addChecked.2 fun _ => ⟨rfl, le_rfl⟩, fun _ => ?_⟩
    exact post_pure.2 ⟨rfl, Nat.le_succ _⟩
  refine hcount.mono ?_
  rintro n _ ⟨rfl, hn⟩
  refine post_ite.2 ⟨fun _ => ?_, fun _ => ?_⟩
  · simp only [post_bind, post_store, post_getEnv, post_addChecked, post_pure]
    refine fun _ hframe => ⟨⟨rfl, rfl, rfl, rfl, hn, le_rfl⟩, hframe, ?_, fun d hd => ?_⟩
    · simp [HasCopy]
    · rcases (hkeep d).1 hd with h | h
      · simp [HasCopy, h]
      · by_cases he : d = id
        · simp [HasCopy, he]
        · simp [HasCopy, Function.update_of_ne he, h]
  · simp only [post_bind, post_store, post_pure]
    refine fun hframe => ⟨⟨rfl, rfl, rfl, rfl, hn, Nat.le_succ _⟩, hframe, ?_, fun d hd => ?_⟩
    · simp [HasCopy]
    · rcases (hkeep d).1 hd with h | h
      · by_cases he : d = id
        · simp [HasCopy, he]
        · simp [HasCopy, Function.update_of_ne he, h]
      · simp [HasCopy, h]

/-- One more entry is listed. -/
theorem Lists.snoc {p : Entry D} (h : Lists s L n) (hp : L[n]? = some p)
    (horder : s'.inst .archivedEventOrder = Function.update (s.inst .archivedEventOrder) n (some p.1))
    (hflag : s'.inst .eventArchivedFlag = Function.update (s.inst .eventArchivedFlag) p.1 (some true))
    (hcopy : HasCopy s' p.1) (hkeep : ∀ d, HasCopy s d → HasCopy s' d) : Lists s' L (n + 1) := by
  refine ⟨(List.getElem?_eq_some_iff.1 hp).1, fun i hi => ?_, fun d => ?_, fun i q hi hq => ?_⟩
  · rw [horder]
    rcases (Nat.lt_succ_iff_lt_or_eq.1 hi) with hlt | rfl
    · rw [Function.update_of_ne hlt.ne, h.order i hlt]
    · rw [Function.update_self, hp, Option.map_some]
  · rw [hflag]
    by_cases hd : d = p.1
    · subst hd
      rw [Function.update_self]
      exact ⟨fun _ => ⟨n, p, Nat.lt_succ_self n, hp, rfl⟩, fun _ => rfl⟩
    · rw [Function.update_of_ne hd, h.flag]
      constructor
      · rintro ⟨i, q, hi, hq⟩
        exact ⟨i, q, Nat.lt_succ_of_lt hi, hq⟩
      · rintro ⟨i, q, hi, hq, he⟩
        rcases Nat.lt_succ_iff_lt_or_eq.1 hi with hlt | rfl
        · exact ⟨i, q, hlt, hq, he⟩
        · rw [hp] at hq
          cases hq
          exact absurd he.symm hd
  · rcases Nat.lt_succ_iff_lt_or_eq.1 hi with hlt | rfl
    · exact hkeep _ (h.copy i q hlt hq)
    · rw [hp] at hq
      cases hq
      exact hcopy

/-! ## The loop -/

/-- The scan after `j` rounds, from the state `s`. -/
structure Scanning (s : State D) (L : List (Entry D)) (cutoff j : ℕ) (acc : ArchiveScan)
    (t : State D) : Prop where
  lists : Lists t L acc.archived
  order : t.inst .eventOrder = s.inst .eventOrder
  data : t.inst .eventData = s.inst .eventData
  here : acc.i = acc.archived
  moved : acc.archived = archivedTotal s + acc.moved
  older : ∀ i p, archivedTotal s ≤ i → i < acc.archived → L[i]? = some p → p.2.timestamp < cutoff
  compressed : acc.compressedCount ≤ acc.archived
  offchain : acc.offchainCount ≤ acc.archived
  going : acc.stopped = false → acc.moved = j
  halted : acc.stopped = true → ∃ p, L[acc.archived]? = some p ∧ cutoff ≤ p.2.timestamp

/-- One round. -/
theorem Scanning.post_archiveEvent {t : State D} {acc : ArchiveScan} {j : ℕ} (hs : Holds s L)
    (hdistinct : DistinctIds L) (h : Scanning s L cutoff j acc t) (hgo : acc.stopped = false) :
    Post (archiveEvent H config cutoff acc) (Scanning s L cutoff (j + 1)) env t := by
  simp only [archiveEvent, post_bind, post_load, post_unwrap, post_ite, post_pure]
  intro x hx
  rw [h.order, hs.order, h.here] at hx
  obtain ⟨p, hp, rfl⟩ := Option.map_eq_some_iff.1 hx
  refine ⟨fun hflag => ?_, fun hflag evt hevt => ⟨fun hcut => ?_, fun hcut => ?_⟩⟩
  · -- the entries before this one have other ids
    obtain ⟨i, q, hi, hq, he⟩ := (h.lists.flag p.1).1 hflag
    exact absurd (hdistinct i _ q p hq hp he) hi.ne
  · rw [h.data, hs.get_data hp] at hevt
    cases hevt
    exact { h with going := fun hno => absurd hno Bool.noConfusion, halted := fun _ => ⟨p, hp, hcut⟩ }
  · rw [h.data, hs.get_data hp] at hevt
    cases hevt
    refine post_archiveCopy_copied.mono ?_
    rintro acc' t' ⟨hcopied, hf, hcopy, hkeep⟩
    simp only [post_store, post_addChecked]
    intro _
    have horder : t'.inst .archivedEventOrder = t.inst .archivedEventOrder := hf.inst (notMem_of_eval rfl)
    have hflags : t'.inst .eventArchivedFlag = t.inst .eventArchivedFlag := hf.inst (notMem_of_eval rfl)
    refine ⟨?_, ?_, ?_, ?_, ?_, fun i q hn hi hq => ?_, ?_, ?_, fun _ => ?_, fun hno => ?_⟩
    · simp only [hcopied.archived]
      refine h.lists.snoc hp (by simp [horder]) (by simp [hflags]) ?_ fun d hd => ?_
      · simpa [HasCopy] using hcopy
      · simpa [HasCopy] using hkeep d hd
    · simpa using (hf.inst (notMem_of_eval rfl)).trans h.order
    · simpa using (hf.inst (notMem_of_eval rfl)).trans h.data
    · simp only [hcopied.i, hcopied.archived, h.here]
    · simp only [hcopied.archived, hcopied.moved, h.moved]
      omega
    · simp only [hcopied.archived] at hi
      rcases Nat.lt_succ_iff_lt_or_eq.1 hi with hlt | rfl
      · exact h.older i q hn hlt hq
      · rw [hp] at hq
        cases hq
        exact Nat.lt_of_not_le hcut
    · have := h.compressed
      have := hcopied.compressed
      simp only [hcopied.archived]
      omega
    · have := h.offchain
      have := hcopied.offchain
      simp only [hcopied.archived]
      omega
    · simp only [hcopied.moved, h.going hgo]
    · rw [hcopied.stopped, hgo] at hno
      cases hno

/-- What a call of `archive_events` does to an archive of `L`. -/
structure ScannedTo (s : State D) (L : List (Entry D)) (cutoff n : ℕ) (s' : State D) : Prop where
  scanned : Scanned s' L
  moved : archivedTotal s' = archivedTotal s + n
  /-- The events archived by the call are older than the cutoff. -/
  older : ∀ i p, archivedTotal s ≤ i → i < archivedTotal s' → L[i]? = some p → p.2.timestamp < cutoff
  /-- The call went to the end of the log or found an event that is not. -/
  reached : archivedTotal s' = L.length ∨ ∃ p, L[archivedTotal s']? = some p ∧ cutoff ≤ p.2.timestamp

/-- The counters are stored after the last round. -/
theorem Scanning.finish {t : State D} {acc : ArchiveScan} {j : ℕ} (h : Scanning s L cutoff j acc t)
    (hj : archivedTotal s + j = L.length)
    (hf : ∀ f ∈ [DataKey.archivedEventOrder, .eventArchivedFlag, .archivedEventData,
      .archivedEventRefKey], s'.inst f = t.inst f)
    (htotal : archivedTotal s' = acc.archived)
    (hcursor : (s'.inst .archiveScanCursor ()).getD 0 = acc.i)
    (hcompressed : (s'.inst .archivedCompressedCount ()).getD 0 ≤ acc.archived)
    (hoffchain : (s'.inst .archivedOffchainCount ()).getD 0 ≤ acc.archived) :
    ScannedTo s L cutoff acc.moved s' := by
  refine ⟨⟨?_, ?_, ?_, ?_⟩, ?_, ?_, ?_⟩
  · rw [htotal]
    refine ⟨h.lists.le, fun i hi => ?_, fun d => ?_, fun i p hi hp => ?_⟩
    · rw [hf _ (by simp), h.lists.order i hi]
    · rw [hf _ (by simp), h.lists.flag d]
    · rw [HasCopy, hf _ (by simp), hf _ (by simp)]
      exact h.lists.copy i p hi hp
  · rw [hcursor, h.here, htotal]
  · rw [htotal]
    exact hcompressed
  · rw [htotal]
    exact hoffchain
  · rw [htotal, h.moved]
  · rw [htotal]
    exact h.older
  · rw [htotal]
    cases hstop : acc.stopped with
    | false =>
      have hmoved := h.moved
      have hgoing := h.going hstop
      exact Or.inl (by omega)
    | true => exact Or.inr (h.halted hstop)

theorem post_scanEvents {caller : Address} (hinj : Function.Injective H.sha256) (hlog : LogInv H s L)
    (h : Scanned s L) :
    Post (archiveEvents H caller cutoff) (fun n s' => ScannedTo s L cutoff n s') env s := by
  unfold archiveEvents
  refine post_bind_reads fun _ _ => post_bind_reads fun _ _ => ?_
  refine post_bind.2 ((post_of_run hlog.totalEvents_run).2 ?_)
  simp only [post_bind, post_load, post_store, post_doIf, post_publish, post_pure]
  have hcursor : ((s.inst .archiveScanCursor ()).getD 0 : ℕ) = archivedTotal s := h.cursor
  rw [hcursor]
  let W : List DataKey := .eventArchivedFlag :: .archivedEventOrder :: copyKeys
  refine Post.with_frame (L := layout D) (W := W) ((post_range (Scanning s L cutoff) ?_ ?_).mono ?_)
  · exact ⟨h.lists, rfl, rfl, rfl, rfl, fun i p hn hi => absurd hi hn.not_gt, h.compressed, h.offchain,
      fun _ => rfl, fun hno => absurd hno Bool.noConfusion⟩
  · intro j acc t _ hscan
    refine post_ite.2 ⟨fun hstop => post_pure.2 ?_, fun hgo => ?_⟩
    · exact { hscan with going := fun hno => absurd (hstop.symm.trans hno) Bool.noConfusion }
    · exact hscan.post_archiveEvent hlog.holds (hlog.chain.distinctIds hinj) (by simpa using hgo)
  · intro acc t hscan hf
    have hcompressed : (t.inst .archivedCompressedCount ()).getD 0 ≤ archivedTotal s := by
      rw [hf.inst (by simp [W])]
      exact h.compressed
    have hoffchain : (t.inst .archivedOffchainCount ()).getD 0 ≤ archivedTotal s := by
      rw [hf.inst (by simp [W])]
      exact h.offchain
    have hle : archivedTotal s ≤ acc.archived := by rw [hscan.moved]; exact Nat.le_add_right ..
    have hj : archivedTotal s + (L.length - archivedTotal s) = L.length := Nat.add_sub_of_le h.lists.le
    refine ⟨fun _ => hscan.finish hj ?_ ?_ ?_ ?_ ?_, fun _ => hscan.finish hj ?_ ?_ ?_ ?_ ?_⟩
    · simp
    · simp [archivedTotal]
    · simp
    · simpa using hscan.compressed
    · simpa using hscan.offchain
    · simp
    · simp [archivedTotal]
    · simp
    · simpa using hcompressed.trans hle
    · simpa using hoffchain.trans hle

/-! ## Runs -/

variable {act : Action D} {tr : List (State D × Action D)} {R : List Record}

/-- The calls that log, configure the archive or archive. -/
def Op.scans : Op D → Prop
  | .logEvent .. | .logEvents _ | .setArchiveConfig .. | .archiveEvents .. => True
  | _ => False

/-- Such a call, or an entry that expires. -/
def Action.scans : Action D → Prop
  | .call _ op => op.scans
  | _ => True

/-- The archive and the log after the calls at the times `ts`. -/
structure InOrder (H : Host D) (ts : List ℕ) (s : State D) (L : List (Entry D)) : Prop where
  log : LogInv H s L
  scanned : Scanned s L
  sorted : (L.map (·.2.timestamp)).Pairwise (· ≤ ·)
  known : ∀ p ∈ L, p.2.timestamp ∈ ts

/-- Entries that are logged at the present time. -/
theorem InOrder.append {ts : List ℕ} {now : ℕ} {M : List (Entry D)} (h : InOrder H ts s L)
    (hnow : ∀ t ∈ ts, t ≤ now) (hlog : LogInv H s' (L ++ M))
    (hM : ∀ r ∈ records M, r.timestamp = now) (hs : ∀ f ∈ archiveKeys, s'.inst f = s.inst f) :
    InOrder H (ts ++ [now]) s' (L ++ M) := by
  have htime : ∀ p ∈ M, p.2.timestamp = now := fun p hp => hM p.2.record (List.mem_map_of_mem hp)
  refine ⟨hlog, h.scanned.grow M hs, ?_, fun p hp => ?_⟩
  · rw [List.map_append, List.pairwise_append]
    refine ⟨h.sorted, ?_, fun t ht t' ht' => ?_⟩
    · rw [List.pairwise_map]
      exact List.pairwise_of_forall_mem_list fun p hp q hq => (htime p hp).trans_le (htime q hq).ge
    · obtain ⟨p, hp, rfl⟩ := List.mem_map.1 ht
      obtain ⟨q, hq, rfl⟩ := List.mem_map.1 ht'
      rw [htime q hq]
      exact hnow _ (h.known p hp)
  · rcases List.mem_append.1 hp with hp | hp
    · exact List.mem_append_left _ (h.known p hp)
    · rw [htime p hp]
      exact List.mem_append_right _ (List.mem_singleton_self now)

/-- A call that does not log. -/
theorem InOrder.later {ts : List ℕ} (h : InOrder H ts s L) (now : ℕ)
    (hlog : ∀ f ∈ logKeys, s'.inst f = s.inst f) (hs : Scanned s' L) : InOrder H (ts ++ [now]) s' L :=
  ⟨h.log.of_eq hlog, hs, h.sorted, fun p hp => List.mem_append_left _ (h.known p hp)⟩

theorem Step.scannedTo {caller : Address} (hinj : Function.Injective H.sha256) (hlog : LogInv H s L)
    (h : Scanned s L) (hs : Step H env (.archiveEvents caller cutoff) s r s') :
    ∃ n, r = .nat n ∧ ScannedTo s L cutoff n s' := by
  have key : Post (exec H (.archiveEvents caller cutoff))
      (fun r s' => ∃ n, r = .nat n ∧ ScannedTo s L cutoff n s') env s := by
    simp only [exec, post_bind, post_pure]
    exact (post_scanEvents hinj hlog h).mono fun n _ hn => ⟨n, rfl, hn⟩
  exact key.of_run hs

/-- **One step.** -/
theorem InOrder.next (hinj : Function.Injective H.sha256) (h : InOrder H (times tr) s L)
    (hact : act.scans) (htime : Timely (tr ++ [(s, act)])) (hn : Next H s act s') :
    ∃ M, InOrder H (times (tr ++ [(s, act)])) s' (L ++ M) := by
  cases act with
  | call env op =>
    obtain ⟨r, hs⟩ := hn
    have hnow := (timely_call.1 htime).2
    have hf := (exec_writes H op).of_run hs
    rw [times_call]
    cases op with
    | logEvent a t m c e force =>
      obtain ⟨M, hM, hrec⟩ := logInv_single hinj h.log rfl hs
      refine ⟨M, h.append hnow hM (fun r hr => ?_) (hf.inst_eq (apart_of_eval rfl))⟩
      rw [hrec] at hr
      simp only [Op.adds, Op.submission] at hr
      split_ifs at hr with hd
      · cases hr
      · rw [List.mem_singleton.1 hr]
        rfl
    | logEvents items =>
      obtain ⟨M, hM, hrec⟩ := logInv_batch hinj h.log hs
      refine ⟨M, h.append hnow hM (fun r hr => ?_) (hf.inst_eq (apart_of_eval rfl))⟩
      rw [hrec] at hr
      obtain ⟨item, -, rfl⟩ := List.mem_map.1 hr
      rfl
    | setArchiveConfig a c =>
      refine ⟨[], ?_⟩
      rw [List.append_nil]
      exact h.later _ (hf.inst_eq (apart_of_eval rfl)) (h.scanned.of_eq (hf.inst_eq (apart_of_eval rfl)))
    | archiveEvents a c =>
      refine ⟨[], ?_⟩
      obtain ⟨n, -, hto⟩ := Step.scannedTo hinj h.log h.scanned hs
      rw [List.append_nil]
      exact h.later _ (hf.inst_eq (apart_of_eval rfl)) hto.scanned
    | _ => exact hact.elim
  | expireTemporary f k | expirePersistent f k =>
    rw [Next] at hn
    subst hn
    refine ⟨[], ?_⟩
    simp only [times_expired, List.append_nil]
    exact ⟨h.log.of_eq fun _ _ => rfl, h.scanned.of_eq fun _ _ => rfl, h.sorted, h.known⟩

theorem Initialized.scanned {g m : ℕ} (h : Initialized s g m) : Scanned s [] := by
  have htotal : archivedTotal s = 0 := by
    rw [archivedTotal, (h.absent (f := .archivedTotalEvents) (by simp) ()).1]
    rfl
  refine ⟨⟨?_, fun i hi => ?_, fun d => ?_, fun i p hi => ?_⟩, ?_, ?_, ?_⟩
  · rw [htotal, List.length_nil]
  · rw [htotal] at hi
    exact absurd hi (Nat.not_lt_zero i)
  · rw [(h.absent (f := .eventArchivedFlag) (by simp) d).1]
    simp
  · rw [htotal] at hi
    exact absurd hi (Nat.not_lt_zero i)
  · rw [(h.absent (f := .archiveScanCursor) (by simp) ()).1, htotal]
    rfl
  · rw [(h.absent (f := .archivedCompressedCount) (by simp) ()).1]
    exact Nat.zero_le _
  · rw [(h.absent (f := .archivedOffchainCount) (by simp) ()).1]
    exact Nat.zero_le _

theorem history_inOrder (hinj : Function.Injective H.sha256) (h : History H tr s) (htime : Timely tr)
    (hops : ∀ p ∈ tr, p.2.scans) : ∃ L, InOrder H (times tr) s L := by
  obtain ⟨s₀, h₀, hrun⟩ := h
  obtain ⟨g, m, hinit⟩ := initialized_of_init h₀
  induction hrun with
  | init =>
    obtain ⟨L, hL, hnil⟩ := hinit.hasLog (H := H)
    obtain rfl : L = [] := List.map_eq_nil_iff.1 hnil
    exact ⟨[], hL, hinit.scanned, List.Pairwise.nil, fun p hp => by cases hp⟩
  | @snoc tr s s' act _ hn ih =>
    obtain ⟨L, hL⟩ := ih htime.of_append fun p hp => hops p (List.mem_append_left _ hp)
    obtain ⟨M, hM⟩ := hL.next hinj (hops (s, act) (by simp)) htime hn
    exact ⟨_, hM⟩

/-! ## What the archive says -/

/-- The event at position `i`, with the given id, is archived. -/
structure Filed (s : State D) (i : ℕ) (id : D) : Prop where
  lt : i < archivedTotal s
  order : s.inst .archivedEventOrder i = some id
  flag : (s.inst .eventArchivedFlag id).isSome
  copy : HasCopy s id

theorem Scanned.filed (h : Scanned s L) {i : ℕ} {p : Entry D} (hi : i < archivedTotal s)
    (hp : L[i]? = some p) : Filed s i p.1 where
  lt := hi
  order := by rw [h.lists.order i hi, hp, Option.map_some]
  flag := (h.lists.flag p.1).2 ⟨i, p, hi, hp, rfl⟩
  copy := h.lists.copy i p hi hp

/-- `get_archive_stats` -/
theorem Scanned.getArchiveStats_run (h : Scanned s L) (hlog : LogInv H s L) :
    ∃ stats, (∀ env, (getArchiveStats : Fn D ArchiveStats).run env s = .ok (stats, s)) ∧
      stats.totalArchived = archivedTotal s ∧ stats.totalCompressed ≤ stats.totalArchived ∧
      stats.totalOffchain ≤ stats.totalArchived := by
  refine ⟨⟨archivedTotal s, (s.inst .archivedCompressedCount ()).getD 0,
    (s.inst .archivedOffchainCount ()).getD 0⟩, fun env => ?_, rfl, h.compressed, h.offchain⟩
  rw [getArchiveStats, run_bind_ok _ _ hlog.requireInitialized_run, run_bind_ok _ _ (run_load ..),
    run_bind_ok _ _ (run_load ..), run_bind_ok _ _ (run_load ..), run_pure]
  rfl

theorem Filed.countArchived_run {i cnt : ℕ} (h : Filed s i id) :
    (countArchived cnt i : Fn D ℕ).run env s = .ok (cnt + 1, s) := by
  rw [countArchived, run_bind_ok _ _ (run_load ..), h.order, onSome, run_bind_ok _ _ (run_load ..),
    run_bind_ok _ _ (run_load ..)]
  have hcopy : (s.inst .archivedEventData id).isSome ∨ (s.inst .archivedEventRefKey id).isSome := h.copy
  rw [if_pos hcopy, run_pure]

/-- Every round counts an entry. -/
theorem foldlM_countArchived (n : ℕ) {a cnt : ℕ}
    (h : ∀ i, a ≤ i → i < a + n → ∃ id, Filed s i id) :
    ((List.range' a n).foldlM countArchived cnt : Fn D ℕ).run env s = .ok (cnt + n, s) := by
  induction n generalizing a cnt with
  | zero => rfl
  | succ n ih =>
    obtain ⟨id, hid⟩ := h a le_rfl (Nat.lt_add_of_pos_right n.succ_pos)
    rw [List.range'_succ, List.foldlM_cons, run_bind_ok _ _ hid.countArchived_run,
      ih fun i hi hlt => h i (Nat.le_of_succ_le hi) (by omega), Nat.add_right_comm, Nat.add_assoc]

/-- `get_archived_event_count` -/
theorem Scanned.getArchivedEventCount_run (h : Scanned s L) :
    (getArchivedEventCount : Fn D ℕ).run env s = .ok (archivedTotal s, s) := by
  have hcount : ((List.range (archivedTotal s)).foldlM countArchived 0 : Fn D ℕ).run env s =
      .ok (0 + archivedTotal s, s) := by
    rw [List.range_eq_range']
    refine foldlM_countArchived (archivedTotal s) fun i _ hi => ?_
    rw [Nat.zero_add] at hi
    exact ⟨_, h.filed hi (List.getElem?_eq_getElem (hi.trans_le h.lists.le))⟩
  rw [getArchivedEventCount, run_bind_ok _ _ (run_load ..)]
  rw [Nat.zero_add] at hcount
  exact hcount

/-- An event that is older than the cutoff comes before one that is not. -/
theorem InOrder.lt_of_older {ts : List ℕ} {i k : ℕ} {p q : Entry D} (h : InOrder H ts s L)
    (hp : L[i]? = some p) (hq : L[k]? = some q) (hlt : p.2.timestamp < q.2.timestamp) : i < k := by
  by_contra hle
  rcases Nat.lt_or_eq_of_le (Nat.le_of_not_lt hle) with hlt' | rfl
  · obtain ⟨hi, rfl⟩ := List.getElem?_eq_some_iff.1 hp
    obtain ⟨hk, rfl⟩ := List.getElem?_eq_some_iff.1 hq
    have hsorted := List.pairwise_iff_getElem.1 h.sorted k i (by simpa using hk) (by simpa using hi) hlt'
    simp only [List.getElem_map] at hsorted
    omega
  · rw [hp] at hq
    cases hq
    omega

/-- **The scan of the archive loses and repeats nothing.** -/
theorem history_scanned (hinj : Function.Injective H.sha256) (h : History H tr s) (htime : Timely tr)
    (hops : ∀ p ∈ tr, p.2.scans) :
    -- the archive is a beginning of the log, without repetition
    archivedTotal s ≤ runtimeTotal s ∧
    (∀ i < archivedTotal s, ∃ id,
      s.inst .archivedEventOrder i = some id ∧ s.inst .eventOrder i = some id ∧
      ∀ j < archivedTotal s, s.inst .archivedEventOrder j = some id → j = i) ∧
    (∀ env, (getArchivedEventCount : Fn D ℕ).run env s = .ok (archivedTotal s, s)) ∧
    -- the counters stay below the total
    (∃ stats, (∀ env, (getArchiveStats : Fn D ArchiveStats).run env s = .ok (stats, s)) ∧
      stats.totalArchived = archivedTotal s ∧ stats.totalCompressed ≤ stats.totalArchived ∧
      stats.totalOffchain ≤ stats.totalArchived) ∧
    -- what the next call returns and archives
    ∀ env caller cutoff r s', Step H env (.archiveEvents caller cutoff) s r s' →
      (∃ n, r = .nat n ∧ archivedTotal s' = archivedTotal s + n) ∧
      ∀ i id e, s'.inst .eventOrder i = some id → s'.inst .eventData id = some e →
        (e.timestamp < cutoff → Filed s' i id) ∧
        (s.inst .eventArchivedFlag id = none → (s'.inst .eventArchivedFlag id).isSome →
          e.timestamp < cutoff) := by
  obtain ⟨L, hL⟩ := history_inOrder hinj h htime hops
  have hids := hL.log.chain.distinctIds hinj
  refine ⟨?_, fun i hi => ?_, fun env => hL.scanned.getArchivedEventCount_run,
    hL.scanned.getArchiveStats_run hL.log, fun env caller cutoff r s' hs => ?_⟩
  · obtain ⟨rs, hrs, hn⟩ := hL.log.counted.runtime
    rw [runtimeTotal, hrs, Option.map_some, Option.getD_some, hn]
    exact hL.scanned.lists.le
  · obtain ⟨p, hp⟩ : ∃ p, L[i]? = some p :=
      ⟨_, List.getElem?_eq_getElem (hi.trans_le hL.scanned.lists.le)⟩
    refine ⟨p.1, (hL.scanned.filed hi hp).order, hL.log.holds.get_order hp, fun j hj hid => ?_⟩
    rw [hL.scanned.lists.order j hj] at hid
    obtain ⟨q, hq, he⟩ := Option.map_eq_some_iff.1 hid
    exact hids j i q p hq hp he
  · obtain ⟨n, hr, hto⟩ := Step.scannedTo hinj hL.log hL.scanned hs
    refine ⟨⟨n, hr, hto.moved⟩, fun i id e hid he => ?_⟩
    have hf := (exec_writes H (.archiveEvents caller cutoff)).of_run hs
    rw [hf.inst (notMem_of_eval rfl), hL.log.holds.order] at hid
    obtain ⟨p, hp, rfl⟩ := Option.map_eq_some_iff.1 hid
    rw [hf.inst (notMem_of_eval rfl), hL.log.holds.get_data hp] at he
    cases he
    refine ⟨fun hlt => hto.scanned.filed ?_ hp, fun hnew hflag => ?_⟩
    · rcases hto.reached with hall | ⟨q, hq, hcut⟩
      · rw [hall]
        exact (List.getElem?_eq_some_iff.1 hp).1
      · exact hL.lt_of_older hp hq (hlt.trans_le hcut)
    · obtain ⟨k, q, hk, hq, he⟩ := (hto.scanned.lists.flag p.1).1 hflag
      obtain rfl : k = i := hids k i q p hq hp he
      refine hto.older k p (Nat.le_of_not_lt fun hlt => ?_) hk hp
      have := (hL.scanned.filed hlt hp).flag
      rw [hnew] at this
      cases this

/-- Two events and a scan that archives the first, then another event. -/
def scanScript : List (Env × Op Bytes) :=
  [(openEnv 11, .logEvent (account 66) "a" [1] none none false),
    (openEnv 12, .logEvents [(account 66, "b", [2])]),
    (openEnv 12, .archiveEvents (account 65) 12),
    (openEnv 12, .setArchiveConfig (account 65) ⟨true, [104], 1⟩),
    (openEnv 13, .logEvent (account 66) "c" [3] none none false),
    (openEnv 13, .archiveEvents (account 65) 5)]

theorem history_scanned_scanScript : ∃ s r s', Reachable plainHost s ∧
    Step plainHost (openEnv 14) (.archiveEvents (account 65) 13) s r s' ∧ archivedTotal s = 1 ∧
    archivedTotal s' = 2 ∧ r = .nat 1 ∧ ∃ id, s'.inst .eventOrder 1 = some id ∧ Filed s' 1 id := by
  let s₀ : State Bytes := deployed (openEnv 10) (account 65) 100 50
  obtain ⟨s', hs'⟩ : ∃ s', play plainHost s₀
      (scanScript ++ [(openEnv 14, .archiveEvents (account 65) 13)]) = some s' :=
    Option.isSome_iff_exists.1 (by decide +kernel)
  obtain ⟨s, r, hs, hstep⟩ := step_of_play hs'
  have hist := history_of_play (init_deployed rfl 100 50) hs
  have before : (play plainHost s₀ scanScript).map archivedTotal = some 1 := by decide +kernel
  have after : (play plainHost s₀ (scanScript ++ [(openEnv 14, .archiveEvents (account 65) 13)])).map
      (fun s => (archivedTotal s, (eventAt s 1).map (·.timestamp))) = some (2, some 12) := by
    decide +kernel
  rw [hs, Option.map_some, Option.some.injEq] at before
  rw [hs', Option.map_some, Option.some.injEq, Prod.mk.injEq] at after
  obtain ⟨-, -, -, -, hcall⟩ := history_scanned Function.injective_id hist (by decide +kernel)
      fun p hp => by
    obtain ⟨env, op, hact, hmem⟩ := call_of_mem_traceOf hp
    rw [hact]
    simp only [scanScript, List.mem_cons, Prod.mk.injEq, List.not_mem_nil, or_false] at hmem
    rcases hmem with ⟨-, rfl⟩ | ⟨-, rfl⟩ | ⟨-, rfl⟩ | ⟨-, rfl⟩ | ⟨-, rfl⟩ | ⟨-, rfl⟩ <;> trivial
  obtain ⟨⟨n, hr, hn⟩, hfiled⟩ := hcall _ _ _ _ _ hstep
  rw [before, after.1] at hn
  obtain rfl : n = 1 := by omega
  obtain ⟨e, he, htime⟩ := Option.map_eq_some_iff.1 after.2
  obtain ⟨id, hid, hdata⟩ := Option.bind_eq_some_iff.1 he
  exact ⟨s, r, s', ⟨_, hist⟩, hstep, before, after.1, hr, id, hid, (hfiled 1 id e hid hdata).1 (by omega)⟩

end AuditLedger
