/-
  AuditLedger — admission control.

  A submitter is gated while the contract is paused, while it is blocked, and
  while allowlist mode is on and it is not on the list (`Gated`).

  * `gated_refused`: every entry point over the single path refuses a gated
    submitter, in every reachable state;
  * `gated_batch_stored`: `log_events` does not.  It reads the pause flag from the
    packed state, which `pause` does not write, and has no other gate.
-/
import AuditTransparency.Ledger.Refinement

namespace AuditLedger

open Soroban
open Soroban.Call hiding hasPers publish

variable {D : Type} [DecidableEq D] {H : Host D} {env : Env} {s s' : State D} {op : Op D}

/-- The submitters a call logs events for. -/
def Op.submitters (op : Op D) : List Address :=
  match op.submission with
  | some x => [x.submitter]
  | none => op.batch.map (·.1)

/-- The call fails.  A failed invocation leaves the ledger as it was. -/
def Refused (H : Host D) (env : Env) (op : Op D) (s : State D) : Prop :=
  ∃ e, (exec H op).run env s = .error e

theorem refused_of_post (h : Post (exec H op) (fun _ _ => False) env s) : Refused H env op s := by
  rcases hrun : (exec H op).run env s with e | ⟨r, s'⟩
  · exact ⟨e, hrun⟩
  · exact (h.of_run hrun).elim

/-- The gate of the single path. -/
theorem gated_logEventWithHierarchy {x : Submission} (hg : Gated s x.submitter) :
    Post (logEventWithHierarchy H x.submitter x.eventType x.metadata x.category x.subEventType x.force)
      (fun _ _ => False) env s := by
  unfold logEventWithHierarchy
  refine post_bind_reads fun _ _ => post_bind_reads fun _ _ => post_bind_reads fun _ _ => ?_
  simp only [enterGuard, validateEventType, post_bind, post_loadTemp, post_rejectIf, post_storeTemp,
    post_pure, post_checkAdmission]
  exact fun _ hn => (hn hg).elim

/-- The single path refuses a gated submitter, whatever the entry point. -/
theorem refused_of_gated {a : Address} (hop : op.batch = []) (ha : a ∈ op.submitters)
    (hg : Gated s a) : Refused H env op s := by
  rcases hx : op.submission with _ | x
  · simp [Op.submitters, hx, hop] at ha
  · obtain rfl : a = x.submitter := by simpa [Op.submitters, hx] using ha
    refine refused_of_post fun r s' hrun => ?_
    obtain ⟨id, s₁, hrun₁, -⟩ := step_single hx hrun
    have henter : Gated (op.enter s) x.submitter := by rw [Gated, Op.enter_inst]; exact hg
    exact (gated_logEventWithHierarchy henter).of_run hrun₁

/-- **Admission control outside of `log_events`.**  In every run, no call that
    succeeded was made for a gated submitter, and in the state the run reaches
    every call for a gated submitter is refused. -/
theorem history_admission {tr : List (State D × Action D)} (h : History H tr s) :
    (∀ s₁ env op, (s₁, Action.call env op) ∈ tr → op.batch = [] →
      ∀ a ∈ op.submitters, ¬Gated s₁ a) ∧
    ∀ env op a, op.batch = [] → a ∈ op.submitters → Gated s a → Refused H env op s := by
  obtain ⟨s₀, -, hrun⟩ := h
  refine ⟨fun s₁ env op hp hop a ha hg => ?_, fun env op a hop ha hg => refused_of_gated hop ha hg⟩
  obtain ⟨s₂, r, hstep⟩ := hrun.step_of_mem hp
  obtain ⟨e, he⟩ : Refused H env op s₁ := refused_of_gated hop ha hg
  rw [Step, he] at hstep
  cases hstep

/-- A paused contract, with a submitter that is blocked and not allowlisted. -/
def gatedScript : List (Env × Op Bytes) :=
  [(openEnv 11, .logEvent (account 66) "a" [1] none none false),
    (openEnv 12, .blockSubmitter (account 65) (account 66)),
    (openEnv 13, .enableAllowlistMode (account 65)),
    (openEnv 14, .pause (account 65))]

theorem history_admission_gatedScript : ∃ s, Reachable plainHost s ∧ Gated s (account 66) ∧
    Refused plainHost (openEnv 15) (.logEvent (account 66) "a" [2] none none false) s := by
  obtain ⟨s, hs⟩ : ∃ s, play plainHost (deployed (openEnv 10) (account 65) 100 50) gatedScript =
      some s := Option.isSome_iff_exists.1 (by decide)
  have hpaused : (play plainHost (deployed (openEnv 10) (account 65) 100 50) gatedScript).bind
      (·.inst .paused ()) = some true := by decide
  rw [hs] at hpaused
  have hg : Gated s (account 66) := Or.inl hpaused
  have hist := history_of_play (init_deployed rfl 100 50) hs
  exact ⟨s, ⟨_, hist⟩, hg, (history_admission hist).2 _ _ _ rfl (by simp [Op.submitters, Op.submission]) hg⟩

/-- `log_events` stores an event of a submitter that is blocked and not allowlisted,
    in a paused contract. -/
theorem gated_batch_stored : ∃ s, Reachable plainHost s ∧
    (isPaused : Fn Bytes Bool).run (openEnv 15) s = .ok (true, s) ∧
    s.inst .submitterBlocklist (account 66) = some true ∧
    s.inst .allowlistMode () = some true ∧ s.inst .submitterAllowlist (account 66) = none ∧
    ∃ r s', Step plainHost (openEnv 15) (.logEvents [(account 66, "a", [2])]) s r s' ∧
      s.inst .config () = some ⟨100, 1⟩ ∧ s'.inst .config () = some ⟨100, 2⟩ ∧
      (eventAt s' 1).map (·.submitter) = some (account 66) := by
  let s₀ : State Bytes := deployed (openEnv 10) (account 65) 100 50
  let call : Env × Op Bytes := (openEnv 15, .logEvents [(account 66, "a", [2])])
  obtain ⟨s', hs'⟩ : ∃ s', play plainHost s₀ (gatedScript ++ [call]) = some s' :=
    Option.isSome_iff_exists.1 (by decide +kernel)
  obtain ⟨s, r, hs, hstep⟩ := step_of_play hs'
  let gates (s : State Bytes) : Option Bool × Option Bool × Option Bool × Option Bool :=
    (s.inst .paused (), s.inst .submitterBlocklist (account 66), s.inst .allowlistMode (),
      s.inst .submitterAllowlist (account 66))
  let log (s : State Bytes) : Option Config × Option Address :=
    (s.inst .config (), (eventAt s 1).map (·.submitter))
  have before : (play plainHost s₀ gatedScript).map (fun s => (gates s, log s)) =
      some ((some true, some true, some true, none), some ⟨100, 1⟩, none) := by decide
  have after : (play plainHost s₀ (gatedScript ++ [call])).map log =
      some (some ⟨100, 2⟩, some (account 66)) := by decide +kernel
  rw [hs] at before
  rw [hs'] at after
  simp only [gates, log, Option.map_some, Option.some.injEq, Prod.mk.injEq] at before after
  obtain ⟨⟨hpaused, hblocked, hmode, hallow⟩, hcfg, -⟩ := before
  refine ⟨s, ⟨_, history_of_play (init_deployed rfl 100 50) hs⟩, ?_, hblocked, hmode, hallow, r, s',
    hstep, hcfg, after.1, after.2⟩
  simp [isPaused, run_bind, Except.bind, hpaused]

end AuditLedger
