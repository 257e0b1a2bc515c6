/-
  Solidity contracts — transactions.

  A function of a contract is a `Tx`: it reads the message it was called with and the
  storage, and returns a value and the storage it leaves, or reverts.  A revert carries
  no storage, so it leaves everything as it was, the logs included.

  * `Post m Q msg s`: if `m` returns from `s`, the result satisfies `Q`.  The `post_*`
    lemmas are equivalences, so `simp` evaluates a `do` block from left to right;
  * `post_loop` is the rule for loops, with an invariant over the elements already visited;
  * `Steps`: a contract as a transition system; a step is a call that does not revert.
-/
import AuditTransparency.Soroban.Run

namespace Solidity

open Soroban (Run)

abbrev Bytes := List UInt8

abbrev Address := BitVec 160

/-- What a call is made with. -/
structure Msg where
  /-- `msg.sender` -/
  sender : Address
  /-- `block.timestamp` -/
  timestamp : ℕ
  deriving DecidableEq

/-- Why a call reverts: with an error of the contract, or on arithmetic overflow. -/
inductive Revert (E : Type) where
  | error (e : E)
  | arithmetic
  deriving DecidableEq

/-- A function of a contract with storage `S`, after it received its arguments. -/
def Tx (E S α : Type) : Type := Msg → S → Except (Revert E) (α × S)

namespace Tx
variable {E S α β : Type}

def run (m : Tx E S α) (msg : Msg) (s : S) : Except (Revert E) (α × S) := m msg s

instance : Monad (Tx E S) where
  pure a := fun _ s => .ok (a, s)
  bind m f := fun msg s =>
    match m msg s with
    | .ok (a, s') => f a msg s'
    | .error e => .error e

/-! ## Primitives -/

def getMsg : Tx E S Msg := fun msg s => .ok (msg, s)

/-- The storage. -/
def get : Tx E S S := fun _ s => .ok (s, s)

/-- Writes to the storage. -/
def modify (f : S → S) : Tx E S Unit := fun _ s => .ok ((), f s)

/-- `revert Error()` -/
def revert (e : E) : Tx E S α := fun _ _ => .error (.error e)

/-- `if (c) revert Error();` -/
def revertIf (c : Prop) [Decidable c] (e : E) : Tx E S Unit := if c then revert e else pure ()

/-- A call of a function that only reads. -/
def ofView (r : Except E α) : Tx E S α := fun _ s =>
  match r with
  | .ok a => .ok (a, s)
  | .error e => .error (.error e)

/-- Addition of a `w`-bit unsigned type. -/
def addChecked (w a b : ℕ) : Tx E S ℕ := fun _ s =>
  if a + b < 2 ^ w then .ok (a + b, s) else .error .arithmetic

/-- `if (c) { .. }` -/
def doIf (c : Prop) [Decidable c] (m : Tx E S Unit) : Tx E S Unit := if c then m else pure ()

/-- A loop over an array that leaves something for the next round. -/
def loop (f : α → β → Tx E S α) (a : α) : List β → Tx E S α
  | [] => pure a
  | b :: l => do loop f (← f a b) l

/-! ## Results -/

section
variable {msg : Msg} {s s' : S}

theorem run_bind_ok {m : Tx E S α} {a : α} (h : m.run msg s = .ok (a, s')) (f : α → Tx E S β) :
    (m >>= f).run msg s = (f a).run msg s' := by
  simp only [run, bind] at h ⊢
  rw [h]

theorem run_bind_error {m : Tx E S α} {e : Revert E} (h : m.run msg s = .error e) (f : α → Tx E S β) :
    (m >>= f).run msg s = .error e := by
  simp only [run, bind] at h ⊢
  rw [h]

theorem run_revertIf_neg {c : Prop} [Decidable c] {e : E} (h : ¬c) :
    (revertIf c e : Tx E S Unit).run msg s = .ok ((), s) := by
  rw [revertIf, if_neg h]
  rfl

theorem run_revertIf_pos {c : Prop} [Decidable c] {e : E} (h : c) :
    (revertIf c e : Tx E S Unit).run msg s = .error (.error e) := by
  rw [revertIf, if_pos h]
  rfl

theorem run_ofView (r : Except E α) : (ofView r : Tx E S α).run msg s =
    match r with
    | .ok a => .ok (a, s)
    | .error e => .error (.error e) := rfl

theorem run_get_bind (f : S → Tx E S α) : (get >>= f).run msg s = (f s).run msg s := rfl

theorem run_doIf_modify (c : Prop) [Decidable c] (f : S → S) :
    (doIf c (modify f) : Tx E S Unit).run msg s = .ok ((), if c then f s else s) := by
  unfold doIf
  split_ifs <;> rfl

end

/-! ## Postconditions -/

/-- If `m` returns from `s`, its result and the storage it leaves satisfy `Q`. -/
def Post (m : Tx E S α) (Q : α → S → Prop) (msg : Msg) (s : S) : Prop :=
  ∀ a s', m.run msg s = .ok (a, s') → Q a s'

theorem Post.of_run {m : Tx E S α} {Q : α → S → Prop} {msg : Msg} {s s' : S} {a : α}
    (h : Post m Q msg s) (hr : m.run msg s = .ok (a, s')) : Q a s' := h a s' hr

theorem Post.mono {m : Tx E S α} {P Q : α → S → Prop} {msg : Msg} {s : S} (h : Post m P msg s)
    (hPQ : ∀ a s', P a s' → Q a s') : Post m Q msg s :=
  fun a s' hr => hPQ a s' (h a s' hr)

section
variable {msg : Msg} {s : S} {Q : α → S → Prop}

theorem post_of_run {m : Tx E S α} {a : α} {s' : S} (h : m.run msg s = .ok (a, s')) :
    Post m Q msg s ↔ Q a s' := by
  refine ⟨fun hp => hp a s' h, fun hq b t hr => ?_⟩
  rw [h] at hr; cases hr; exact hq

@[simp] theorem post_pure {a : α} : Post (pure a : Tx E S α) Q msg s ↔ Q a s := post_of_run rfl

@[simp] theorem post_bind {m : Tx E S β} {f : β → Tx E S α} :
    Post (m >>= f) Q msg s ↔ Post m (fun b s' => Post (f b) Q msg s') msg s := by
  constructor
  · intro h b s' hm a s'' hf
    exact h a s'' (by rw [run_bind_ok hm]; exact hf)
  · intro h a s'' hr
    rcases hm : m.run msg s with e | ⟨b, s'⟩
    · rw [run_bind_error hm] at hr; cases hr
    · rw [run_bind_ok hm] at hr; exact h b s' hm a s'' hr

@[simp] theorem post_revert {e : E} : Post (revert e : Tx E S α) Q msg s ↔ True :=
  iff_true_intro fun _ _ h => by cases h

@[simp] theorem post_ite {c : Prop} [Decidable c] {m n : Tx E S α} :
    Post (if c then m else n) Q msg s ↔ (c → Post m Q msg s) ∧ (¬c → Post n Q msg s) := by
  split_ifs with h <;> simp [h]

@[simp] theorem post_getMsg {R : Msg → S → Prop} : Post (getMsg : Tx E S Msg) R msg s ↔ R msg s :=
  post_of_run rfl

@[simp] theorem post_get {R : S → S → Prop} : Post (get : Tx E S S) R msg s ↔ R s s := post_of_run rfl

@[simp] theorem post_modify {f : S → S} {R : Unit → S → Prop} :
    Post (modify f : Tx E S Unit) R msg s ↔ R () (f s) := post_of_run rfl

@[simp] theorem post_revertIf {c : Prop} [Decidable c] {e : E} {R : Unit → S → Prop} :
    Post (revertIf c e : Tx E S Unit) R msg s ↔ (¬c → R () s) := by
  unfold revertIf; split_ifs with h <;> simp [h]

@[simp] theorem post_ofView {r : Except E α} {R : α → S → Prop} :
    Post (ofView r : Tx E S α) R msg s ↔ ∀ a, r = .ok a → R a s := by
  cases r with
  | ok a =>
    rw [post_of_run (show (ofView (.ok a) : Tx E S α).run msg s = .ok (a, s) from rfl)]
    constructor
    · rintro h b hb
      obtain rfl := Except.ok.inj hb
      exact h
    · exact fun h => h a rfl
  | error e =>
    constructor
    · rintro - b hb
      cases hb
    · rintro - b s' hr
      cases hr

@[simp] theorem post_addChecked {w a b : ℕ} {R : ℕ → S → Prop} :
    Post (addChecked w a b : Tx E S ℕ) R msg s ↔ (a + b < 2 ^ w → R (a + b) s) := by
  by_cases h : a + b < 2 ^ w
  · simp only [h, forall_true_left]
    exact post_of_run (if_pos h)
  · simp only [h]
    exact ⟨fun _ h' => (by cases h'), fun _ b t hr => by simp [run, addChecked, h] at hr⟩

@[simp] theorem post_doIf {c : Prop} [Decidable c] {m : Tx E S Unit} {R : Unit → S → Prop} :
    Post (doIf c m) R msg s ↔ (c → Post m R msg s) ∧ (¬c → R () s) := by
  unfold doIf; simp

end

/-- **Loop rule.**  `I done a s` holds when the loop has visited `done`. -/
theorem post_loop {msg : Msg} {f : α → β → Tx E S α} (I : List β → α → S → Prop) {l : List β}
    (hstep : ∀ done b a s, I done a s → Post (f a b) (I (done ++ [b])) msg s) :
    ∀ {done : List β} {a : α} {s : S}, I done a s → Post (loop f a l) (I (done ++ l)) msg s := by
  induction l with
  | nil =>
    intro done a s h
    rw [loop, post_pure, List.append_nil]
    exact h
  | cons b l ih =>
    intro done a s h
    rw [loop, post_bind]
    refine (hstep done b a s h).mono fun a' s' h' => ?_
    have hrest := @ih (done ++ [b]) a' s' h'
    rwa [List.append_assoc] at hrest

/-- The loop rule for what does not depend on the elements visited. -/
theorem post_loop_invariant {msg : Msg} {f : α → β → Tx E S α} {I : α → S → Prop} {l : List β} {a : α} {s : S}
    (hstep : ∀ b a s, I a s → Post (f a b) I msg s) (h : I a s) : Post (loop f a l) I msg s :=
  @post_loop E S α β msg f (fun _ => I) l (fun _ b a s => hstep b a s) [] a s h

/-! ## Contracts -/

section
variable {Op R : Type}

/-- One step: a call that does not revert. -/
def Steps (exec : Op → Tx E S R) (s : S) (c : Msg × Op) (s' : S) : Prop :=
  ∃ r, (exec c.2).run c.1 s = .ok (r, s')

/-- The storage after a list of calls; `none` when one of them reverts. -/
def play (exec : Op → Tx E S R) (s : S) : List (Msg × Op) → Option S
  | [] => some s
  | c :: rest =>
    match (exec c.2).run c.1 s with
    | .ok (_, s') => play exec s' rest
    | .error _ => none

/-- The trace of a list of calls, up to the first that reverts. -/
def traceOf (exec : Op → Tx E S R) (s : S) : List (Msg × Op) → List (S × (Msg × Op))
  | [] => []
  | c :: rest =>
    (s, c) :: match (exec c.2).run c.1 s with
      | .ok (_, s') => traceOf exec s' rest
      | .error _ => []

variable {exec : Op → Tx E S R} {s s' : S}

/-- A script that does not revert is a run. -/
theorem run_of_play {script : List (Msg × Op)} (h : play exec s script = some s') :
    Run (Steps exec) s (traceOf exec s script) s' ∧ (traceOf exec s script).map Prod.snd = script := by
  induction script generalizing s with
  | nil =>
    obtain rfl : s = s' := Option.some.inj h
    exact ⟨.init, rfl⟩
  | cons c rest ih =>
    rw [play] at h
    rcases hr : (exec c.2).run c.1 s with e | ⟨r, s₁⟩
    · rw [hr] at h; cases h
    · rw [hr] at h
      obtain ⟨hrun, hmap⟩ := ih h
      have htrace : traceOf exec s (c :: rest) = [(s, c)] ++ traceOf exec s₁ rest := by
        rw [traceOf, hr]
        rfl
      rw [htrace, List.map_append, hmap]
      exact ⟨Run.append (.snoc .init ⟨r, hr⟩) hrun, rfl⟩

end

end Tx

end Solidity
