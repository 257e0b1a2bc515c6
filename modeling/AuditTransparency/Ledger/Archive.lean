/-
  AuditLedger — the archived copy of an event.

  `archive_events` keeps a copy of every event it moves.  Whether the copy is
  compressed is decided by the configuration at that moment, and not recorded:
  `get_archived_event` decides by the first byte of what is stored.

  * `expandItems_ne`: no payload is its own expansion;
  * `history_archived`: an event archived without compression is returned as it was
    exactly when its metadata does not begin with the tag of a compressed payload.
-/
import AuditTransparency.Ledger.Contract

namespace AuditLedger

open Soroban
open Soroban.Call hiding hasPers publish

/-! ## Compressed payloads -/

/-- The item at the start of a payload, and those behind it. -/
theorem expandItems_cons (c : UInt8) (rest : Bytes) :
    expandItems (c :: rest) =
      if c = 0x00 then
        match rest with
        | [] => []
        | b :: rest => b :: expandItems rest
      else if c = 0x01 then
        match rest with
        | b :: lo :: hi :: x :: rest =>
          List.replicate (lo.toNat ||| (hi.toNat <<< 8)) b ++ expandItems (x :: rest)
        | rest => expandItems rest
      else
        c :: expandItems rest := expandItems.eq_def (c :: rest)

@[simp]
theorem expandItems_nil : expandItems [] = [] := rfl

@[simp]
theorem expandItems_zero : expandItems [0] = [] := expandItems_cons 0 []

theorem expandItems_literal (b : UInt8) (rest : Bytes) :
    expandItems (0 :: b :: rest) = b :: expandItems rest := expandItems_cons 0 (b :: rest)

theorem expandItems_run (b lo hi x : UInt8) (rest : Bytes) :
    expandItems (1 :: b :: lo :: hi :: x :: rest) =
      List.replicate (lo.toNat + 256 * hi.toNat) b ++ expandItems (x :: rest) := by
  have hlen : lo.toNat ||| (hi.toNat <<< 8) = lo.toNat + 256 * hi.toNat := by
    have hlt : lo.toNat < 2 ^ 8 := lo.toNat_lt
    rw [Nat.or_comm, ← Nat.shiftLeft_add_eq_or_of_lt hlt, Nat.shiftLeft_eq]
    omega
  rw [expandItems_cons]
  simp [hlen]

theorem expandItems_short {rest : Bytes} (h : rest.length ≤ 3) :
    expandItems (1 :: rest) = expandItems rest := by
  rw [expandItems_cons]
  rcases rest with _ | ⟨b, _ | ⟨lo, _ | ⟨hi, _ | ⟨x, rest⟩⟩⟩⟩
  · rfl
  · rfl
  · rfl
  · rfl
  · simp only [List.length_cons] at h
    omega

theorem expandItems_other {c : UInt8} (h₀ : c ≠ 0) (h₁ : c ≠ 1) (rest : Bytes) :
    expandItems (c :: rest) = c :: expandItems rest := by
  rw [expandItems_cons, if_neg h₀, if_neg h₁]

/-- The items a payload is read by. -/
theorem items_induction {motive : Bytes → Prop} (nil : motive []) (zero : motive [0])
    (literal : ∀ b rest, motive rest → motive (0 :: b :: rest))
    (run : ∀ b lo hi x rest, motive (x :: rest) → motive (1 :: b :: lo :: hi :: x :: rest))
    (short : ∀ rest, rest.length ≤ 3 → motive rest → motive (1 :: rest))
    (other : ∀ c rest, c ≠ 0 → c ≠ 1 → motive rest → motive (c :: rest)) (t : Bytes) : motive t := by
  induction hn : t.length using Nat.strong_induction_on generalizing t with
  | _ n ih =>
    subst hn
    rcases t with _ | ⟨c, rest⟩
    · exact nil
    have hrest : motive rest := ih _ (by simp) rest rfl
    by_cases h₀ : c = 0
    · subst h₀
      rcases rest with _ | ⟨b, rest⟩
      · exact zero
      · refine literal b rest (ih _ ?_ rest rfl)
        simp only [List.length_cons]
        omega
    by_cases h₁ : c = 1
    · subst h₁
      rcases rest with _ | ⟨b, _ | ⟨lo, _ | ⟨hi, _ | ⟨x, rest⟩⟩⟩⟩
      · exact short _ (by simp) hrest
      · exact short _ (by simp) hrest
      · exact short _ (by simp) hrest
      · exact short _ (by simp) hrest
      · refine run b lo hi x rest (ih _ ?_ _ rfl)
        simp only [List.length_cons]
        omega
    · exact other c rest h₀ h₁ hrest

/-- A short payload has no run items, so it does not grow. -/
theorem length_expandItems_le {t : Bytes} (h : t.length ≤ 4) : (expandItems t).length ≤ t.length := by
  induction t using items_induction with
  | nil => simp
  | zero => simp
  | literal b rest ih =>
    rw [expandItems_literal]
    simp at h ⊢
    omega
  | run b lo hi x rest ih =>
    simp only [List.length_cons] at h
    omega
  | short rest hlen ih =>
    rw [expandItems_short hlen]
    simp at h ⊢
    omega
  | other c rest h₀ h₁ ih =>
    rw [expandItems_other h₀ h₁]
    simp at h ⊢
    omega

/-- An expansion that is ahead of the payload stays ahead, once it holds another byte than `0x01`. -/
theorem expandItems_ne_append (t : Bytes) : ∀ w : Bytes, (∃ b ∈ w, b ≠ 1) → expandItems t ≠ w ++ t := by
  induction t using items_induction with
  | nil =>
    rintro w ⟨b, hb, -⟩ he
    rw [expandItems_nil, List.append_nil] at he
    rw [← he] at hb
    cases hb
  | zero =>
    intro w _ he
    simp at he
  | literal b rest ih =>
    rintro w ⟨y, hy, hy1⟩ he
    obtain ⟨c, w', rfl⟩ := List.exists_cons_of_ne_nil (List.ne_nil_of_mem hy)
    rw [expandItems_literal] at he
    simp only [List.cons_append, List.cons.injEq] at he
    exact ih (w' ++ [0, b]) ⟨0, by simp, by decide⟩ (by simpa using he.2)
  | run b lo hi x rest ih =>
    rintro w ⟨y, hy, hy1⟩ he
    rw [expandItems_run] at he
    generalize lo.toNat + 256 * hi.toNat = n at he
    rcases List.append_eq_append_iff.1 he with ⟨w', rfl, he'⟩ | ⟨v, hv, he'⟩
    · -- the run is consumed by what was ahead, and its item takes its place
      refine ih (w' ++ [1, b, lo, hi]) ?_ (by simpa using he')
      rcases List.mem_append.1 hy with hy | hy
      · obtain rfl := List.eq_of_mem_replicate hy
        exact ⟨y, by simp, hy1⟩
      · exact ⟨y, by simp [hy], hy1⟩
    · -- the run reaches its own item, so it is one of tag bytes
      cases v with
      | nil =>
        rw [List.append_nil] at hv
        refine ih [1, b, lo, hi] ⟨y, ?_, hy1⟩ (by simpa using he'.symm)
        obtain rfl := List.eq_of_mem_replicate (n := n) (hv.symm ▸ hy)
        simp
      | cons z v =>
        simp only [List.cons_append, List.cons.injEq] at he'
        have hz : z = b := List.eq_of_mem_replicate (n := n) (hv.symm ▸ by simp)
        have hyb : y = b := List.eq_of_mem_replicate (n := n) (hv.symm ▸ List.mem_append_left _ hy)
        exact hy1 (hyb.trans (hz.symm.trans he'.1.symm))
  | short rest hlen ih =>
    rintro w ⟨y, hy, hy1⟩ he
    rw [expandItems_short hlen] at he
    exact ih (w ++ [1]) ⟨y, by simp [hy], hy1⟩ (by simpa using he)
  | other c rest h₀ h₁ ih =>
    rintro w ⟨y, hy, hy1⟩ he
    obtain ⟨d, w', rfl⟩ := List.exists_cons_of_ne_nil (List.ne_nil_of_mem hy)
    rw [expandItems_other h₀ h₁] at he
    simp only [List.cons_append, List.cons.injEq] at he
    exact ih (w' ++ [c]) ⟨c, by simp, h₁⟩ (by simpa using he.2)

/-- An expansion that is behind by a run of tag bytes only falls back further. -/
theorem expandItems_ne_drop (t : Bytes) :
    ∀ k, 5 ≤ k → List.replicate k 1 <+: t → expandItems t ≠ t.drop k := by
  induction t using items_induction with
  | nil =>
    intro k hk hpre
    have := hpre.length_le
    simp at this
    omega
  | zero =>
    intro k hk hpre
    have := hpre.length_le
    simp at this
    omega
  | literal b rest ih =>
    intro k hk hpre
    obtain ⟨k, rfl⟩ := Nat.exists_eq_add_of_le hk
    simp [Nat.add_comm 5 k, List.replicate_succ] at hpre
  | run b lo hi x rest ih =>
    intro k hk hpre he
    rw [expandItems_run] at he
    obtain ⟨k, rfl⟩ := Nat.exists_eq_add_of_le hk
    simp only [Nat.add_comm 5 k, List.replicate_succ, List.cons_prefix_cons] at hpre
    obtain ⟨-, rfl, rfl, rfl, rfl, hpre⟩ := hpre
    -- the run item of tag bytes stands for 257 of them
    obtain ⟨u, rfl⟩ := hpre
    have hu : List.replicate 257 1 ++ expandItems (1 :: (List.replicate k 1 ++ u)) = u := by
      have hdrop : ((1 : UInt8) :: 1 :: 1 :: 1 :: 1 :: (List.replicate k 1 ++ u)).drop (k + 5) =
          (List.replicate k 1 ++ u).drop k := rfl
      rw [Nat.add_comm 5 k, hdrop, List.drop_left' List.length_replicate] at he
      exact he
    have hcut : (1 : UInt8) :: (List.replicate k 1 ++ u) =
        List.replicate (k + 258) 1 ++ expandItems (1 :: (List.replicate k 1 ++ u)) := by
      conv_lhs => rw [← hu]
      rw [← List.append_assoc, List.replicate_append_replicate, ← List.cons_append, ← List.replicate_succ]
    refine ih (k + 258) (by omega) ?_ ?_
    · rw [hcut]
      exact List.prefix_append ..
    · conv_rhs => rw [hcut]
      rw [List.drop_left' List.length_replicate]
  | short rest hlen ih =>
    intro k hk hpre
    have hle := hpre.length_le
    simp only [List.length_replicate, List.length_cons] at hle
    omega
  | other c rest h₀ h₁ ih =>
    intro k hk hpre
    obtain ⟨k, rfl⟩ := Nat.exists_eq_add_of_le hk
    simp [Nat.add_comm 5 k, List.replicate_succ, Ne.symm h₁] at hpre

/-- A run item at the start of a payload leaves the expansion ahead, or behind by tag bytes. -/
theorem expandItems_run_ne (b lo hi x : UInt8) (rest : Bytes) :
    expandItems (1 :: b :: lo :: hi :: x :: rest) ≠ 1 :: 1 :: b :: lo :: hi :: x :: rest := by
  rw [expandItems_run]
  generalize hn : lo.toNat + 256 * hi.toNat = n
  intro he
  have ahead := expandItems_ne_append (x :: rest)
  have toNat_ne : ∀ {c : UInt8}, c.toNat ≠ 1 → c ≠ 1 := fun hc he => hc (by rw [he]; rfl)
  have hlo := lo.toNat_lt
  -- how many bytes of the run there are besides those the payload shows
  rcases n with _ | _ | _ | _ | n
  · exact ahead [1, 1, b, lo, hi] ⟨lo, by simp, toNat_ne (by omega)⟩ he
  · simp only [List.replicate_succ, List.replicate_zero, List.cons_append, List.nil_append,
      List.cons.injEq] at he
    obtain ⟨rfl, he⟩ := he
    exact ahead [1, 1, lo, hi] ⟨hi, by simp, toNat_ne (by omega)⟩ he
  · simp only [List.replicate_succ, List.replicate_zero, List.cons_append, List.nil_append,
      List.cons.injEq] at he
    obtain ⟨rfl, -, he⟩ := he
    exact ahead [1, lo, hi] ⟨lo, by simp, toNat_ne (by omega)⟩ he
  · simp only [List.replicate_succ, List.replicate_zero, List.cons_append, List.nil_append,
      List.cons.injEq] at he
    obtain ⟨rfl, -, -, he⟩ := he
    exact ahead [lo, hi] ⟨lo, by simp, toNat_ne (by omega)⟩ he
  · simp only [List.replicate_succ, List.cons_append, List.cons.injEq] at he
    obtain ⟨rfl, -, -, rfl, he⟩ := he
    have hone : (1 : UInt8).toNat = 1 := rfl
    obtain ⟨n, rfl⟩ : ∃ n', n = n' + 1 := ⟨n - 1, by omega⟩
    simp only [List.replicate_succ, List.cons_append, List.cons.injEq] at he
    obtain ⟨rfl, he⟩ := he
    obtain rfl : n = 252 := by omega
    refine expandItems_ne_drop (x :: rest) 252 (by omega) ⟨_, he⟩ ?_
    conv_rhs => rw [← he]
    rw [List.drop_left' List.length_replicate]

/-- **No payload is its own expansion.** -/
theorem expandItems_ne (r : Bytes) : expandItems r ≠ 1 :: r := by
  induction r using items_induction with
  | nil => simp
  | zero => simp
  | literal b rest =>
    rw [expandItems_literal]
    intro he
    simp only [List.cons.injEq] at he
    obtain ⟨rfl, he⟩ := he
    exact expandItems_ne_append rest [0, 1] ⟨0, by simp, by decide⟩ he
  | run b lo hi x rest => exact expandItems_run_ne b lo hi x rest
  | short rest hlen =>
    rw [expandItems_short hlen]
    intro he
    have hle := length_expandItems_le (hlen.trans (Nat.le_succ 3))
    rw [he, List.length_cons, List.length_cons] at hle
    omega
  | other c rest h₀ h₁ =>
    rw [expandItems_other h₀ h₁]
    intro he
    exact h₁ (List.cons.inj he).1

/-- A tagged payload is changed by reading it. -/
theorem expandArchivedMetadata_eq_iff (m : Bytes) :
    (if isCompressedTag m then expandArchivedMetadata m else m) = m ↔ isCompressedTag m = false := by
  rcases m with _ | ⟨c, m⟩
  · simp [isCompressedTag]
  · by_cases hc : c = 1
    · subst hc
      simp [isCompressedTag, expandArchivedMetadata, expandItems_ne]
    · simp [isCompressedTag, hc]

/-! ## The copy -/

variable {D : Type} [DecidableEq D] {H : Host D} {env : Env} {s s' s₁ s₂ : State D} {op : Op D} {r : Ret D}
  {act : Action D} {id : D} {evt : Event D} {config : ArchiveConfig} {cutoff : ℕ}

/-- The configuration keeps copies on chain, uncompressed. -/
def ArchiveConfig.plain (config : ArchiveConfig) : Prop :=
  config.offchainStorage = false ∧ config.compression ≠ 1

/-- The archive configuration in force. -/
def archiveConfigOf (s : State D) : ArchiveConfig := (s.inst .archiveConfig ()).getD .defaultConfig

/-- What archiving does to the entry of `id`: nothing, or it is archived from now on, with a copy
    of the event if the configuration is plain. -/
def ArchivedIn (config : ArchiveConfig) (s s' : State D) (id : D) : Prop :=
  (s'.inst .eventArchivedFlag id = s.inst .eventArchivedFlag id ∧
    s'.inst .archivedEventData id = s.inst .archivedEventData id) ∨
  (s.inst .eventArchivedFlag id = none ∧ s'.inst .eventArchivedFlag id = some true ∧
    (config.plain → ∃ evt, s.inst .eventData id = some evt ∧ s'.inst .archivedEventData id = some evt))

theorem post_archiveCopy {acc : ArchiveScan} :
    Post (archiveCopy H config acc id evt) (fun _ s' =>
      s'.inst .eventArchivedFlag = s.inst .eventArchivedFlag ∧
      (∀ d ≠ id, s'.inst .archivedEventData d = s.inst .archivedEventData d) ∧
      (config.plain → s'.inst .archivedEventData id = some evt)) env s := by
  unfold archiveCopy
  refine post_bind_reads fun header _ => post_bind.2 ?_
  refine Post.with_frame (L := layout D) (W := [.archivedEventHeaderKey]) fun _ s₀ _ hf => ?_
  have hflag : s₀.inst .eventArchivedFlag = s.inst .eventArchivedFlag := hf.inst (notMem_of_eval rfl)
  have hdata : s₀.inst .archivedEventData = s.inst .archivedEventData := hf.inst (notMem_of_eval rfl)
  refine post_bind_reads fun metadata _ => post_bind_reads fun compressed _ =>
    post_ite.2 ⟨fun hoff => ?_, fun _ => ?_⟩
  · simp only [post_bind, post_store, post_getEnv, post_addChecked, post_pure]
    refine fun _ => ⟨by simp [hflag], fun d hd => by simp [hdata], fun hplain => ?_⟩
    rw [hplain.1] at hoff
    cases hoff
  · simp only [post_bind, post_store, post_pure]
    refine ⟨by simp [hflag], fun d hd => ?_, fun hplain => ?_⟩
    · simp [Function.update_of_ne hd, hdata]
    · simp [hplain.2]

/-- The counters of the archive. -/
abbrev archiveCounters : List DataKey :=
  [.archiveScanCursor, .archivedTotalEvents, .archivedCompressedCount, .archivedOffchainCount]

/-- **The rule for `archive_events`**: what holds of the archive and the number of its places, and is
    kept when a copy is filed, holds at the end. -/
theorem post_archiveEvents_of {caller : Address} (I : ℕ → State D → Prop)
    (hreads : ∀ n t t', (∀ f ∉ archiveCounters, t'.inst f = t.inst f) → I n t → I n t')
    (hround : ∀ (acc : ArchiveScan) t x evt, I acc.archived t → t.inst .eventArchivedFlag x = none →
      t.inst .eventData x = some evt →
      Post (archiveCopy H (archiveConfigOf s) acc x evt) (fun acc' t' =>
        I (acc'.archived + 1) ((t'.put .eventArchivedFlag x true).put .archivedEventOrder acc'.archived x)) env t)
    (h : I ((s.inst .archivedTotalEvents ()).getD 0) s) :
    Post (archiveEvents H caller cutoff)
      (fun _ s' => I ((s'.inst .archivedTotalEvents ()).getD 0) s') env s := by
  unfold archiveEvents
  refine post_bind_reads fun _ _ => post_bind_reads fun _ _ => post_bind_reads fun total _ => ?_
  simp only [post_bind, post_load, post_store, post_doIf, post_publish, post_pure]
  refine (post_range (fun _ acc t => I acc.archived t) h ?_).mono ?_
  · rintro j acc t - ht
    refine post_ite.2 ⟨fun _ => post_pure.2 ht, fun _ => ?_⟩
    simp only [archiveEvent, post_bind, post_load, post_unwrap, post_ite, post_pure]
    refine fun x _ => ⟨fun _ => ht, fun hflag evt hevt => ⟨fun _ => ht, fun _ => ?_⟩⟩
    refine (hround acc t x evt ht (by simpa using hflag) hevt).mono fun acc' t' ht' => ?_
    simp only [post_store, post_addChecked]
    exact fun _ => ht'
  · rintro acc t ht
    have hlast : ∀ t' : State D, (∀ f ∉ archiveCounters, t'.inst f = t.inst f) →
        t'.inst .archivedTotalEvents () = some acc.archived →
        I ((t'.inst .archivedTotalEvents ()).getD 0) t' := fun t' hs htotal => by
      rw [htotal]
      exact hreads _ _ _ hs ht
    refine ⟨fun _ => hlast _ (fun f hf => ?_) (by simp), fun _ => hlast _ (fun f hf => ?_) (by simp)⟩
    · simp only [List.mem_cons, List.not_mem_nil, or_false, not_or] at hf
      simp [hf]
    · simp only [List.mem_cons, List.not_mem_nil, or_false, not_or] at hf
      simp [hf]

/-- An entry that is archived keeps its copy. -/
theorem ArchivedIn.trans {s'' : State D} (h : ArchivedIn config s s' id)
    (h' : ArchivedIn config s' s'' id)
    (hd : s'.inst .eventData = s.inst .eventData) : ArchivedIn config s s'' id := by
  rcases h with ⟨hf, hc⟩ | ⟨hf, hf', hc⟩
  · rcases h' with ⟨hf₁, hc₁⟩ | ⟨hf₁, hf₁', hc₁⟩
    · exact Or.inl ⟨hf₁.trans hf, hc₁.trans hc⟩
    · exact Or.inr ⟨hf ▸ hf₁, hf₁', fun hp => by rw [← hd]; exact hc₁ hp⟩
  · rcases h' with ⟨hf₁, hc₁⟩ | ⟨hf₁, -, -⟩
    · exact Or.inr ⟨hf, hf₁.trans hf', fun hp => by rw [hc₁]; exact hc hp⟩
    · rw [hf'] at hf₁
      cases hf₁

/-- **What `archive_events` does to an entry**, under the configuration it finds. -/
theorem post_archiveEvents {caller : Address} :
    Post (archiveEvents H caller cutoff) (fun _ s' => ∀ id,
      ArchivedIn (archiveConfigOf s) s s' id) env s := by
  let I (_ : ℕ) (t : State D) : Prop :=
    (∀ id, ArchivedIn (archiveConfigOf s) s t id) ∧ t.inst .eventData = s.inst .eventData
  refine (post_archiveEvents_of I ?_ ?_ ⟨fun _ => Or.inl ⟨rfl, rfl⟩, rfl⟩).mono fun _ s' h => h.1
  · rintro _ t t' hs ⟨hall, hd⟩
    refine ⟨fun id => ?_, (hs _ (by simp)).trans hd⟩
    rw [ArchivedIn, hs .eventArchivedFlag (by simp), hs .archivedEventData (by simp)]
    exact hall id
  · rintro acc t x evt ⟨hall, hd⟩ hflag hevt
    refine Post.with_frame (L := layout D) (W := [.archivedEventHeaderKey, .archivedEventMetadata,
      .archivedEventRefKey, .archivedEventData]) (post_archiveCopy.mono ?_)
    rintro acc' t' ⟨hflags, hothers, hcopy⟩ hf
    have hd' : t'.inst .eventData = t.inst .eventData := hf.inst (notMem_of_eval rfl)
    refine ⟨fun d => (hall d).trans ?_ hd, by simpa [hd'] using hd⟩
    by_cases hx : d = x
    · subst hx
      refine Or.inr ⟨hflag, by simp, fun hplain => ⟨evt, hevt, ?_⟩⟩
      simpa using hcopy hplain
    · refine Or.inl ⟨?_, ?_⟩
      · simp [Function.update_of_ne hx, hflags]
      · simpa using hothers d hx

/-! ## Later states -/

/-- The call removes the copy of `id`. -/
def Op.purges (s : State D) (id : D) : Op D → Prop
  | .purgeArchivedEvents _ cutoff confirm => confirm = true ∧
      (∃ e, s.inst .archivedEventData id = some e ∧ e.timestamp < cutoff) ∧
      ∃ i < (s.inst .archivedTotalEvents ()).getD 0, s.inst .archivedEventOrder i = some id
  | _ => False

/-- The action removes the copy of `id`. -/
def Action.purges (s : State D) (id : D) : Action D → Prop
  | .call _ op => op.purges s id
  | _ => False

/-- `id` is archived, and its copy is `evt`. -/
structure Archived (s : State D) (id : D) (evt : Event D) : Prop where
  flag : s.inst .eventArchivedFlag id ≠ none
  copy : s.inst .archivedEventData id = some evt

/-- A purge that is not meant for `id`. -/
theorem post_purgeArchivedEvents {caller : Address} {confirm : Bool} (h : Archived s id evt)
    (hno : ¬(Op.purgeArchivedEvents caller cutoff confirm : Op D).purges s id) :
    Post (purgeArchivedEvents caller cutoff confirm) (fun _ s' => Archived s' id evt) env s := by
  unfold purgeArchivedEvents
  refine post_bind_reads fun _ _ => post_bind_reads fun _ _ =>
    post_ite.2 ⟨fun _ => post_pure.2 h, fun hconfirm => ?_⟩
  simp only [post_bind, post_load, post_publish, post_pure]
  let n := (s.inst .archivedTotalEvents ()).getD 0
  -- the positions still to be visited are as they were
  let I (j : ℕ) (_ : ℕ) (t : State D) : Prop :=
    Archived t id evt ∧ ∀ i, j ≤ i → t.inst .archivedEventOrder i = s.inst .archivedEventOrder i
  refine (post_range I ⟨h, fun _ _ => rfl⟩ ?_).mono fun _ t ht => ⟨ht.1.flag, ht.1.copy⟩
  rintro j c t hj ⟨ht, horder⟩
  simp only [purgeArchivedEvent, post_bind, post_load, post_onSome, post_ite, post_clear, post_pure]
  refine ⟨fun x hx => ⟨fun hold => ?_, fun _ => ⟨ht, fun i hi => horder i (by omega)⟩⟩,
    fun _ => ⟨ht, fun i hi => horder i (by omega)⟩⟩
  have hne : id ≠ x := by
    rintro rfl
    obtain ⟨e, he, hlt⟩ := hold
    rw [ht.copy] at he
    refine hno ⟨by simpa using hconfirm, ⟨evt, h.copy, ?_⟩, j, hj, ?_⟩
    · rwa [Option.some.inj he]
    · rw [← horder j le_rfl]
      exact hx
  refine ⟨⟨by simpa using ht.flag, ?_⟩, fun i hi => ?_⟩
  · simpa [Function.update_of_ne hne] using ht.copy
  · have hij : i ≠ j := by omega
    simpa [Function.update_of_ne hij] using horder i (by omega)

/-- A step that does not purge the copy keeps it. -/
theorem archived_next (hno : ¬act.purges s id) (hn : Next H s act s') (h : Archived s id evt) :
    Archived s' id evt := by
  cases act with
  | call env op =>
    obtain ⟨r, hs⟩ := hn
    have framed : DataKey.eventArchivedFlag ∉ op.writes → DataKey.archivedEventData ∉ op.writes →
        Archived s' id evt := by
      intro hf hd
      have hframe := (exec_writes H op).of_run hs
      exact ⟨by rw [hframe.inst hf]; exact h.flag, by rw [hframe.inst hd]; exact h.copy⟩
    cases op with
    | archiveEvents a c =>
      have key : Post (exec H (.archiveEvents a c))
          (fun _ s' => ∀ id, ArchivedIn (archiveConfigOf s) s s' id) env s := by
        simp only [exec, post_bind, post_pure]
        exact post_archiveEvents
      rcases key.of_run hs id with ⟨hf, hd⟩ | ⟨hf, -, -⟩
      · exact ⟨hf ▸ h.flag, hd.trans h.copy⟩
      · exact absurd hf h.flag
    | purgeArchivedEvents a c confirm =>
      have key : Post (exec H (.purgeArchivedEvents a c confirm)) (fun _ s' => Archived s' id evt) env s := by
        simp only [exec, post_bind, post_pure]
        exact post_purgeArchivedEvents h hno
      exact key.of_run hs
    | _ => exact framed (notMem_of_eval rfl) (notMem_of_eval rfl)
  | expireTemporary f k | expirePersistent f k =>
    rw [Next] at hn; subst hn
    exact ⟨h.flag, h.copy⟩

/-- What `get_archived_event` returns. -/
theorem Archived.getArchivedEvent_run (h : Archived s id evt) : (getArchivedEvent H id).run env s = .ok
    ({ evt with
      metadata := if isCompressedTag evt.metadata then expandArchivedMetadata evt.metadata
        else evt.metadata }, s) := by
  rw [getArchivedEvent, run_bind_ok _ _ (run_load ..), h.copy]
  by_cases hc : isCompressedTag evt.metadata = true
  · simp [onSome, hc]
  · simp [onSome, hc]

/-- **An event archived without compression is returned as it was exactly when its metadata does
    not begin with the tag of a compressed payload**, whatever is configured later. -/
theorem history_archived {caller : Address} {tr : List (State D × Action D)}
    (hs : Step H env (.archiveEvents caller cutoff) s₁ r s₂) (hplain : (archiveConfigOf s₁).plain)
    (hnew : s₁.inst .eventArchivedFlag id = none) (hflag : s₂.inst .eventArchivedFlag id ≠ none)
    (hrun : Run (Next H) s₂ tr s) (hkept : ∀ p ∈ tr, ¬p.2.purges p.1 id) :
    ∃ evt, s₁.inst .eventData id = some evt ∧
      ((∀ env, (getArchivedEvent H id).run env s = .ok (evt, s)) ↔
        isCompressedTag evt.metadata = false) := by
  have key : Post (exec H (.archiveEvents caller cutoff))
      (fun _ s' => ∀ id, ArchivedIn (archiveConfigOf s₁) s₁ s' id) env s₁ := by
    simp only [exec, post_bind, post_pure]
    exact post_archiveEvents
  rcases key.of_run hs id with ⟨hf, -⟩ | ⟨-, hf, hc⟩
  · rw [hf] at hflag
    exact absurd hnew hflag
  · obtain ⟨evt, hevt, hcopy⟩ := hc hplain
    have hlast : Archived s id evt := hrun.invariant (C := fun s act => ¬act.purges s id)
      (I := fun s => Archived s id evt) ⟨hflag, hcopy⟩ (fun _ _ _ hno hn h => archived_next hno hn h) hkept
    refine ⟨evt, hevt, ?_⟩
    rw [← expandArchivedMetadata_eq_iff evt.metadata]
    constructor
    · intro hall
      have hret := hall ⟨0, 0, fun _ => true, fun _ => 0⟩
      rw [hlast.getArchivedEvent_run] at hret
      simp only [Except.ok.injEq, Prod.mk.injEq, and_true] at hret
      exact congrArg Event.metadata hret
    · intro hmeta env
      rw [hlast.getArchivedEvent_run, hmeta]

/-- An event with the metadata `m`. -/
def storedScript (m : Bytes) : List (Env × Op Bytes) :=
  [(openEnv 11, .logEvent (account 66) "a" m none none false)]

/-- Its id. -/
def storedId (m : Bytes) : Bytes := computeEventId plainHost (openEnv 11) (account 66) "a" m 11 0

theorem history_archived_storedScript : ∃ s evt, Reachable plainHost s ∧ evt.metadata = [2, 1] ∧
    ∀ env, (getArchivedEvent plainHost (storedId [2, 1])).run env s = .ok (evt, s) := by
  let s₀ : State Bytes := deployed (openEnv 10) (account 65) 100 50
  obtain ⟨s, hs⟩ : ∃ s, play plainHost s₀ (storedScript [2, 1] ++
      (openEnv 12, .archiveEvents (account 65) 12) ::
        [(openEnv 13, .setArchiveConfig (account 65) ⟨false, [], 1⟩)]) = some s :=
    Option.isSome_iff_exists.1 (by decide +kernel)
  obtain ⟨s₁, r, s₂, hpre, hstep, hpost, hist⟩ := history_around (init_deployed rfl 100 50) hs
  have before : (play plainHost s₀ (storedScript [2, 1])).map (fun s => (archiveConfigOf s,
      s.inst .eventArchivedFlag (storedId [2, 1]), (s.inst .eventData (storedId [2, 1])).map (·.metadata))) =
      some (.defaultConfig, none, some [2, 1]) := by decide +kernel
  have after : (play plainHost s₀ (storedScript [2, 1] ++ [(openEnv 12, .archiveEvents (account 65) 12)])).map
      (fun s => s.inst .eventArchivedFlag (storedId [2, 1])) = some (some true) := by decide +kernel
  rw [hpre] at before
  rw [play_snoc hpre hstep] at after
  simp only [Option.map_some, Option.some.injEq, Prod.mk.injEq] at before after
  obtain ⟨hconfig, hnew, hmeta⟩ := before
  obtain ⟨evt, hevt, hiff⟩ := history_archived hstep (by rw [hconfig]; exact ⟨rfl, by decide⟩) hnew
    (by rw [after]; simp) (run_of_play hpost) fun p hp => by
      obtain ⟨env, op, hact, hmem⟩ := call_of_mem_traceOf hp
      rw [List.mem_singleton] at hmem
      cases hmem
      rw [hact]
      exact fun hpurge => hpurge
  have hm : evt.metadata = [2, 1] := by
    rw [hevt] at hmeta
    exact Option.some.inj hmeta
  exact ⟨s, evt, ⟨_, hist⟩, hm, hiff.2 (by rw [hm]; decide)⟩

/-- The first byte of the metadata is taken for the tag of a compressed payload. -/
theorem tagged_metadata_changed : ∃ tr₁ s₁ tr₂ s evt evt',
    History plainHost (tr₁ ++ (s₁, .call (openEnv 12) (.archiveEvents (account 65) 12)) :: tr₂) s ∧
    (archiveConfigOf s₁).plain ∧ s₁.inst .eventArchivedFlag (storedId [1, 7]) = none ∧
    s₁.inst .eventData (storedId [1, 7]) = some evt ∧ evt.metadata = [1, 7] ∧
    (∀ p ∈ tr₂, ¬p.2.purges p.1 (storedId [1, 7])) ∧
    (getArchivedEvent plainHost (storedId [1, 7])).run (openEnv 14) s = .ok (evt', s) ∧
    evt'.metadata = [7] := by
  let s₀ : State Bytes := deployed (openEnv 10) (account 65) 100 50
  obtain ⟨s, hs⟩ : ∃ s, play plainHost s₀ (storedScript [1, 7] ++
      (openEnv 12, .archiveEvents (account 65) 12) :: []) = some s :=
    Option.isSome_iff_exists.1 (by decide +kernel)
  obtain ⟨s₁, r, s₂, hpre, hstep, hpost, hist⟩ := history_around (init_deployed rfl 100 50) hs
  have before : (play plainHost s₀ (storedScript [1, 7])).map (fun s => (archiveConfigOf s,
      s.inst .eventArchivedFlag (storedId [1, 7]), (s.inst .eventData (storedId [1, 7])).map (·.metadata))) =
      some (.defaultConfig, none, some [1, 7]) := by decide +kernel
  have after : (play plainHost s₀ (storedScript [1, 7] ++ (openEnv 12,
      .archiveEvents (account 65) 12) :: [])).map
      (fun s => (s.inst .archivedEventData (storedId [1, 7])).map (·.metadata)) = some (some [1, 7]) := by
    decide +kernel
  rw [hpre] at before
  rw [hs] at after
  simp only [Option.map_some, Option.some.injEq, Prod.mk.injEq] at before after
  obtain ⟨hconfig, hnew, hmeta⟩ := before
  obtain ⟨evt, hevt, hm⟩ := Option.map_eq_some_iff.1 hmeta
  obtain ⟨copy, hcopy, hm'⟩ := Option.map_eq_some_iff.1 after
  refine ⟨_, s₁, _, s, evt, { copy with metadata := [7] }, hist, by rw [hconfig]; exact ⟨rfl, by decide⟩,
    hnew, hevt, hm, by simp [traceOf], ?_, rfl⟩
  rw [getArchivedEvent, run_bind_ok _ _ (run_load ..), hcopy]
  simp only [onSome, run_pure, hm']
  rfl

end AuditLedger
