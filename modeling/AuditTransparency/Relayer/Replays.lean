/-
  ReplayQueue — every item is accounted for, and submitted by one pass at a time.

  The books of a run say what was removed, dropped, started and has succeeded.  `Accounted` is what they
  should say; it holds along every run in which an item is submitted only while it is in the queue and
  no other pass submits it, and is still in the queue when its submission has succeeded, or has failed
  for the last time (`Guarded`).  Two passes that overlap submit an item twice (`submitted_twice`).
-/
import AuditTransparency.Relayer.ReplayQueue

namespace ReplayQueue

open Soroban

variable {c : ReplayConfig} {w w' : World} {b : Book} {a : Action} {tr : List (World × Action)}

/-- All items are somewhere. -/
def Balanced (b : Book) (w : World) : Prop :=
  w.stats.totalEnqueued =
    w.queue.length + w.stats.totalSucceeded + w.stats.totalFailed + b.removed + b.dropped

/-- What the books should say. -/
structure Accounted (c : ReplayConfig) (b : Book) (w : World) : Prop where
  balanced : Balanced b w
  once : b.succeeded.Nodup
  single : w.inFlight.Nodup
  retries : ∀ r, b.started.count r ≤ c.maxRetries
  capacity : w.queue.length ≤ c.maxQueueSize

/-- An entry of the queue holds an item under its hash, and the item is not given up. -/
def Retained (c : ReplayConfig) (w : World) (e : String × ℕ) : Prop :=
  ∃ item ∈ w.items[e.2]?, item.eventHash = e.1 ∧ item.attempts ≤ c.maxRetries

/-- What every step keeps; the items `flight` are being submitted. -/
structure Kept (c : ReplayConfig) (b : Book) (flight : List ℕ) (w : World) : Prop where
  once : b.succeeded.Nodup
  single : flight.Nodup
  retries : ∀ r, b.started.count r ≤ c.maxRetries
  capacity : w.queue.length ≤ c.maxQueueSize
  keys : (w.queue.map Prod.fst).Nodup
  retained : ∀ e ∈ w.queue, Retained c w e
  passes : ∀ pass ∈ w.passes, pass.Nodup ∧ ∀ r ∈ pass, r < w.items.length
  /-- every submission has failed, has succeeded, or is in flight -/
  attempts : ∀ r, ∀ item ∈ w.items[r]?,
    b.started.count r + 1 = item.attempts + flight.count r + b.succeeded.count r
  known : ∀ r ∈ b.started ++ b.succeeded ++ flight, r < w.items.length
  gone : ∀ r ∈ b.succeeded, r ∉ w.queued

/-! ## The queue -/

theorem has_iff {eventHash : String} : w.has eventHash = true ↔ ∃ e ∈ w.queue, e.1 = eventHash := by
  simp [World.has]

theorem mem_queued {r : ℕ} : r ∈ w.queued ↔ ∃ eventHash, (eventHash, r) ∈ w.queue := by
  simp [World.queued]

/-- What is left when a key is deleted. -/
theorem mem_eraseP_iff {l : List (String × ℕ)} {e : String × ℕ} {eventHash : String}
    (hl : (l.map Prod.fst).Nodup) :
    e ∈ l.eraseP (fun e => e.1 = eventHash) ↔ e ∈ l ∧ e.1 ≠ eventHash := by
  induction l with
  | nil => simp
  | cons e' l ih =>
    rw [List.map_cons, List.nodup_cons] at hl
    by_cases he' : e'.1 = eventHash
    · rw [List.eraseP_cons_of_pos (by simpa using he'), List.mem_cons]
      constructor
      · intro he
        refine ⟨Or.inr he, fun hkey => hl.1 ?_⟩
        rw [he', ← hkey]
        exact List.mem_map_of_mem he
      · rintro ⟨rfl | he, hkey⟩
        · exact absurd he' hkey
        · exact he
    · rw [List.eraseP_cons_of_neg (by simpa using he'), List.mem_cons, List.mem_cons, ih hl.2]
      constructor
      · rintro (rfl | ⟨he, hkey⟩)
        · exact ⟨Or.inl rfl, he'⟩
        · exact ⟨Or.inr he, hkey⟩
      · rintro ⟨rfl | he, hkey⟩
        · exact Or.inl rfl
        · exact Or.inr ⟨he, hkey⟩

theorem length_delete (w : World) (eventHash : String) :
    (w.delete eventHash).queue.length + (if w.has eventHash then 1 else 0) = w.queue.length := by
  rw [World.delete]
  by_cases hhas : w.has eventHash = true
  · obtain ⟨e, he, hkey⟩ := has_iff.1 hhas
    have hpos : 0 < w.queue.length := List.length_pos_of_mem he
    rw [if_pos hhas, List.length_eraseP_of_mem he (by simpa using hkey)]
    omega
  · rw [if_neg hhas, List.eraseP_of_forall_not, Nat.add_zero]
    intro e he hkey
    exact hhas (has_iff.2 ⟨e, he, by simpa using hkey⟩)

namespace Kept
variable {flight : List ℕ} {p r : ℕ} {item : ReplayQueueItem} {h : Host}

theorem perm {flight' : List ℕ} (hk : Kept c b flight w) (hp : flight.Perm flight') : Kept c b flight' w :=
  { hk with
    single := hp.nodup_iff.1 hk.single
    attempts := fun r item hitem => by rw [← hp.count_eq]; exact hk.attempts r item hitem
    known := fun r hr => hk.known r ((hp.append_left _).mem_iff.2 hr) }

/-- An item is in the queue under its own hash. -/
theorem key (hk : Kept c b flight w) {e : String × ℕ} (he : e ∈ w.queue) (hitem : w.items[e.2]? = some item) :
    e.1 = item.eventHash := by
  obtain ⟨item', hitem', hkey, -⟩ := hk.retained e he
  obtain rfl : item = item' := Option.some.inj (hitem.symm.trans hitem')
  exact hkey.symm

theorem lt_of_queued (hk : Kept c b flight w) (hr : r ∈ w.queued) : r < w.items.length := by
  obtain ⟨eventHash, he⟩ := mem_queued.1 hr
  obtain ⟨item, hitem, -⟩ := hk.retained _ he
  exact (List.getElem?_eq_some_iff.1 hitem).1

theorem nodup_queued (hk : Kept c b flight w) : w.queued.Nodup := by
  refine List.Nodup.map_on (fun e he e' he' heq => ?_) (List.Nodup.of_map _ hk.keys)
  obtain ⟨item, hitem, hkey, -⟩ := hk.retained e he
  refine Prod.ext ?_ heq
  rw [← hkey, hk.key he' (heq ▸ hitem)]

/-- Other entries have other keys. -/
theorem key_ne (hk : Kept c b flight w) {r' : ℕ} {eventHash eventHash' : String}
    (hr : (eventHash, r) ∈ w.queue)
    (hr' : (eventHash', r') ∈ w.queue) (hne : r' ≠ r) : eventHash' ≠ eventHash := by
  rintro rfl
  have heq := List.inj_on_of_nodup_map hk.keys hr' hr rfl
  exact hne (congrArg Prod.snd heq)

/-! ## Deleting and dropping -/

/-- Fewer items may be in the queue. -/
theorem subqueue {queue : List (String × ℕ)} {stats : ReplayStats} (hk : Kept c b flight w)
    (hsub : queue.Sublist w.queue) : Kept c b flight { w with queue, stats } :=
  { hk with
    capacity := Nat.le_trans hsub.length_le hk.capacity
    keys := (hsub.map _).nodup hk.keys
    retained := fun e he => hk.retained e (hsub.subset he)
    gone := fun r hr hq => hk.gone r hr ((hsub.map _).subset hq) }

theorem delete (hk : Kept c b flight w) (eventHash : String) : Kept c b flight (w.delete eventHash) :=
  hk.subqueue (List.eraseP_sublist)

/-- An item whose hash was deleted is not in the queue. -/
theorem not_mem_delete (hk : Kept c b flight w) (hitem : w.items[r]? = some item) :
    r ∉ (w.delete item.eventHash).queued := by
  intro hr
  obtain ⟨eventHash, he⟩ := mem_queued.1 hr
  obtain ⟨he, hne⟩ := (mem_eraseP_iff hk.keys).1 he
  exact hne (hk.key he hitem)

/-- The others stay. -/
theorem mem_delete (hk : Kept c b flight w) {r' : ℕ} (hitem : w.items[r]? = some item) (hr : r ∈ w.queued)
    (hr' : r' ∈ w.queued) (hne : r' ≠ r) : r' ∈ (w.delete item.eventHash).queued := by
  obtain ⟨eventHash, he⟩ := mem_queued.1 hr
  obtain ⟨eventHash', he'⟩ := mem_queued.1 hr'
  refine mem_queued.2 ⟨eventHash', (mem_eraseP_iff hk.keys).2 ⟨he', ?_⟩⟩
  rw [← hk.key he hitem]
  exact hk.key_ne he he' hne

/-! ## Enqueueing -/

/-- The queue without what is dropped at capacity. -/
theorem length_enqueue (w : World) (eventHash : String) (eventIndex : ℕ) (payload error : String) (h : Host)
    (hnew : w.has eventHash = false) :
    (w.enqueue c eventHash eventIndex payload error h).queue.length + w.drops c eventHash =
      w.queue.length + 1 := by
  have hnew' : ¬w.has eventHash = true := by simp [hnew]
  rw [World.enqueue, World.drops, if_neg hnew', if_neg hnew']
  dsimp only
  rw [List.length_append, List.length_singleton]
  split_ifs with hfull
  · rw [List.length_tail]
    omega
  · rfl

theorem enqueue (hk : Kept c b flight w) (hsize : 0 < c.maxQueueSize) (hretries : 0 < c.maxRetries)
    (eventHash : String) (eventIndex : ℕ) (payload error : String) :
    Kept c b flight (w.enqueue c eventHash eventIndex payload error h) := by
  by_cases hhas : w.has eventHash = true
  · rw [World.enqueue, if_pos hhas]
    exact hk
  rw [World.enqueue, if_neg hhas]
  -- first the oldest item goes, if there are too many
  generalize hkept : (if c.maxQueueSize ≤ w.queue.length then w.queue.tail else w.queue) = kept
  have hsub : kept.Sublist w.queue := by
    rw [← hkept]
    split_ifs
    · exact List.tail_sublist _
    · exact List.Sublist.refl _
  have hroom : kept.length < c.maxQueueSize := by
    have hle := hk.capacity
    rw [← hkept]
    split_ifs with hfull
    · rw [List.length_tail]
      omega
    · omega
  have hfresh : ∀ e ∈ kept, e.1 ≠ eventHash := fun e he hkey => hhas (has_iff.2 ⟨e, hsub.subset he, hkey⟩)
  have hlt : ∀ e ∈ kept, e.2 < w.items.length := fun e he =>
    hk.lt_of_queued (List.mem_map_of_mem (hsub.subset he))
  refine ⟨hk.once, hk.single, hk.retries, ?_, ?_, ?_, ?_, ?_, ?_, ?_⟩
  · rw [List.length_append, List.length_singleton]
    exact hroom
  · rw [List.map_append, List.map_singleton, List.nodup_append_comm, List.singleton_append, List.nodup_cons]
    refine ⟨fun hmem => ?_, (hsub.map _).nodup hk.keys⟩
    obtain ⟨e, he, hkey⟩ := List.mem_map.1 hmem
    exact hfresh e he hkey
  · intro e he
    rcases List.mem_append.1 he with he | he
    · obtain ⟨item, hitem, hkey, hle⟩ := hk.retained e (hsub.subset he)
      refine ⟨item, ?_, hkey, hle⟩
      rw [Option.mem_def, List.getElem?_append_left (hlt e he)]
      exact hitem
    · obtain rfl := List.mem_singleton.1 he
      exact ⟨_, List.getElem?_concat_length, rfl, hretries⟩
  · intro pass hpass
    obtain ⟨hnodup, hbound⟩ := hk.passes pass hpass
    refine ⟨hnodup, fun r hr => ?_⟩
    rw [List.length_append]
    exact Nat.lt_add_right _ (hbound r hr)
  · intro r item hitem
    rcases Nat.lt_or_ge r w.items.length with hr | hr
    · rw [Option.mem_def, List.getElem?_append_left hr] at hitem
      exact hk.attempts r item hitem
    · -- the new item: nothing has happened to it
      have hbound : r < (w.items ++ [_]).length := (List.getElem?_eq_some_iff.1 hitem).1
      rw [List.length_append, List.length_singleton] at hbound
      obtain rfl : r = w.items.length := by omega
      have hnot : w.items.length ∉ b.started ++ b.succeeded ++ flight := fun hmem =>
        Nat.lt_irrefl _ (hk.known _ hmem)
      simp only [List.mem_append, not_or] at hnot
      rw [List.getElem?_concat_length] at hitem
      obtain rfl := Option.some.inj hitem
      rw [List.count_eq_zero.2 hnot.1.1, List.count_eq_zero.2 hnot.1.2, List.count_eq_zero.2 hnot.2]
  · intro r hr
    rw [List.length_append]
    exact Nat.lt_add_right _ (hk.known r hr)
  · intro r hr hq
    have hr' : r < w.items.length := hk.known r (by simp [hr])
    rw [World.queued, List.map_append, List.mem_append, List.map_singleton, List.mem_singleton] at hq
    rcases hq with hq | rfl
    · exact hk.gone r hr ((hsub.map _).subset hq)
    · exact Nat.lt_irrefl _ hr'

/-! ## Submitting -/

/-- The items that are in flight, when one pass is changed. -/
theorem inFlight_set {passes : List (List ℕ)} {pass : List ℕ} (h : passes[p]? = some pass) (pass' : List ℕ) :
    ∃ others, (passes.filterMap List.head?).Perm (pass.head?.toList ++ others) ∧
      ((passes.set p pass').filterMap List.head?).Perm (pass'.head?.toList ++ others) := by
  obtain ⟨hp, rfl⟩ := List.getElem?_eq_some_iff.1 h
  have hcons : ∀ (l : List ℕ) (ls : List (List ℕ)),
      (l :: ls).filterMap List.head? = l.head?.toList ++ ls.filterMap List.head? := by
    intro l ls
    cases l <;> rfl
  refine ⟨(passes.eraseIdx p).filterMap List.head?, ?_, ?_⟩
  · rw [← hcons]
    exact (List.getElem_cons_eraseIdx_perm hp).symm.filterMap _
  · rw [← hcons]
    exact (List.set_perm_cons_eraseIdx hp pass').filterMap _

/-- A pass that wakes up leaves its item to be settled. -/
theorem wake {rest : List ℕ} (hk : Kept c b w.inFlight w) (hp : w.passes[p]? = some (r :: rest)) :
    Kept c b (r :: (w.wake p).inFlight) (w.wake p) := by
  obtain ⟨others, hbefore, hafter⟩ := inFlight_set hp []
  have hperm : w.inFlight.Perm (r :: (w.wake p).inFlight) := hbefore.trans (hafter.symm.cons r)
  refine { hk.perm hperm with passes := fun pass hpass => ?_ }
  rcases List.mem_or_eq_of_mem_set hpass with hpass | rfl
  · exact hk.passes pass hpass
  · simp

/-- An item whose submission has succeeded is not in the queue any more. -/
theorem succeed (hk : Kept c b (r :: flight) w) (hitem : w.items[r]? = some item) (hr : r ∈ w.queued) :
    Kept c { b with succeeded := b.succeeded ++ [r] } flight (w.succeed item h) := by
  have hd := hk.delete item.eventHash
  refine ⟨?_, hk.single.of_cons, hk.retries, hd.capacity, hd.keys, hd.retained, hd.passes, ?_, ?_, ?_⟩
  · rw [← List.concat_eq_append, List.nodup_concat]
    exact ⟨fun hmem => hk.gone r hmem hr, hk.once⟩
  · intro r' item' hitem'
    have heq := hk.attempts r' item' hitem'
    rw [List.count_cons] at heq
    dsimp only
    rw [List.count_append, List.count_singleton]
    omega
  · intro r' hr'
    apply hk.known
    simp only [List.mem_append, List.mem_cons] at hr' ⊢
    tauto
  · intro r' hr'
    rcases List.mem_append.1 hr' with hr' | hr'
    · exact hd.gone r' hr'
    · obtain rfl := List.mem_singleton.1 hr'
      exact hk.not_mem_delete hitem

/-- A submission that has failed is counted as an attempt. -/
theorem setItem {item' : ReplayQueueItem} {stats : ReplayStats} (hk : Kept c b (r :: flight) w)
    (hitem : w.items[r]? = some item) (hkey : item'.eventHash = item.eventHash)
    (hattempts : item'.attempts = item.attempts + 1) (hle : r ∈ w.queued → item'.attempts ≤ c.maxRetries) :
    Kept c b flight { w with items := w.items.set r item', stats } := by
  have hr : r < w.items.length := (List.getElem?_eq_some_iff.1 hitem).1
  refine ⟨hk.once, hk.single.of_cons, hk.retries, hk.capacity, hk.keys, fun e he => ?_, fun pass hpass => ?_,
    fun r' item₁ hitem₁ => ?_, fun r' hr' => ?_, hk.gone⟩
  · by_cases hre : r = e.2
    · refine ⟨item', ?_, ?_, hle (mem_queued.2 ⟨e.1, hre ▸ he⟩)⟩
      · rw [← hre, Option.mem_def, List.getElem?_set_self hr]
      · rw [hkey, hk.key he (hre ▸ hitem)]
    · obtain ⟨item₁, hitem₁, hkey₁, hle₁⟩ := hk.retained e he
      refine ⟨item₁, ?_, hkey₁, hle₁⟩
      rw [Option.mem_def, List.getElem?_set_ne hre]
      exact hitem₁
  · rw [List.length_set]
    exact hk.passes pass hpass
  · by_cases hrr : r = r'
    · subst hrr
      rw [Option.mem_def, List.getElem?_set_self hr] at hitem₁
      obtain rfl := Option.some.inj hitem₁
      have heq := hk.attempts r item hitem
      rw [List.count_cons_self] at heq
      omega
    · rw [Option.mem_def, List.getElem?_set_ne hrr] at hitem₁
      have heq := hk.attempts r' item₁ hitem₁
      rw [List.count_cons_of_ne hrr] at heq
      exact heq
  · rw [List.length_set]
    apply hk.known
    simp only [List.mem_append, List.mem_cons] at hr' ⊢
    tauto

theorem fail {message : String} (hk : Kept c b (r :: flight) w) (hitem : w.items[r]? = some item) :
    Kept c b flight (w.fail c r item message h) := by
  rw [World.fail]
  split_ifs with hlast
  · exact (hk.delete item.eventHash).setItem hitem rfl rfl fun hr => absurd hr (hk.not_mem_delete hitem)
  · exact hk.setItem hitem rfl rfl fun _ => Nat.le_of_not_lt hlast

/-- A submission that starts. -/
theorem launch {rest : List ℕ} {now : ℕ} (hk : Kept c b w.inFlight w) (hp : w.passes[p]? = some [])
    (hpass : (r :: rest).Nodup ∧ ∀ r' ∈ r :: rest, r' < w.items.length) (hr : r ∈ w.queued)
    (hsingle : r ∉ w.inFlight) :
    Kept c { b with started := b.started ++ [r] } (w.resume p (r :: rest) now).inFlight
      (w.resume p (r :: rest) now) := by
  obtain ⟨others, hbefore, hafter⟩ := inFlight_set hp (r :: rest)
  have hperm : (r :: w.inFlight).Perm (w.resume p (r :: rest) now).inFlight :=
    (List.Perm.cons r hbefore).trans hafter.symm
  have hnot : r ∉ b.succeeded := fun hmem => hk.gone r hmem hr
  refine Kept.perm (?_ : Kept c _ (r :: w.inFlight) _) hperm
  -- only the time of the attempt of an item changes
  have hitems : ∀ r' : ℕ, ∃ g : ReplayQueueItem → ReplayQueueItem,
      (w.resume p (r :: rest) now).items[r']? = (w.items[r']?).map g ∧
        ∀ item, (g item).eventHash = item.eventHash ∧ (g item).attempts = item.attempts := by
    intro r'
    refine ⟨_, List.getElem?_modify .., fun item => ?_⟩
    split_ifs <;> exact ⟨rfl, rfl⟩
  have hlength : (w.resume p (r :: rest) now).items.length = w.items.length := List.length_modify ..
  refine ⟨hk.once, List.nodup_cons.2 ⟨hsingle, hk.single⟩, fun r' => ?_, hk.capacity, hk.keys, fun e he => ?_,
    fun pass hmem => ?_, fun r' item hitem => ?_, fun r' hr' => ?_, hk.gone⟩
  · dsimp only
    rw [List.count_append, List.count_singleton]
    split_ifs with heq
    · obtain rfl := beq_iff_eq.1 heq
      obtain ⟨eventHash, he⟩ := mem_queued.1 hr
      obtain ⟨item, hitem, -, hle⟩ := hk.retained _ he
      have hattempts := hk.attempts r item hitem
      rw [List.count_eq_zero.2 hsingle, List.count_eq_zero.2 hnot] at hattempts
      omega
    · exact hk.retries r'
  · obtain ⟨item, hitem, hkey, hle⟩ := hk.retained e he
    obtain ⟨g, hg, hsame⟩ := hitems e.2
    refine ⟨g item, ?_, (hsame item).1.trans hkey, (hsame item).2 ▸ hle⟩
    rw [hg, Option.mem_def.1 hitem]
    rfl
  · rw [hlength]
    rcases List.mem_or_eq_of_mem_set hmem with hmem | rfl
    · exact hk.passes pass hmem
    · exact hpass
  · obtain ⟨g, hg, hsame⟩ := hitems r'
    rw [hg, Option.mem_def, Option.map_eq_some_iff] at hitem
    obtain ⟨item', hitem', rfl⟩ := hitem
    have heq := hk.attempts r' item' hitem'
    dsimp only
    rw [(hsame item').2, List.count_append, List.count_singleton, List.count_cons]
    omega
  · rw [hlength]
    simp only [List.mem_append, List.mem_cons, List.not_mem_nil, or_false] at hr'
    rcases hr' with ((hr' | rfl) | hr') | (rfl | hr')
    · exact hk.known r' (by simp [hr'])
    · exact hpass.2 r' (by simp)
    · exact hk.known r' (by simp [hr'])
    · exact hpass.2 r' (by simp)
    · exact hk.known r' (by simp [hr'])

end Kept

/-! ## Steps -/

/-- Whether an answer takes the item out of the queue. -/
def World.ends (c : ReplayConfig) (w : World) (r : ℕ) : Outcome → Bool
  | .resolved => true
  | .rejected _ => (w.items[r]?).any fun item => c.maxRetries < item.attempts + 1

/-- The items that an answer adds to those that have succeeded. -/
def Outcome.won (r : ℕ) : Outcome → List ℕ
  | .resolved => [r]
  | .rejected _ => []

/-- An item is submitted only while it is in the queue and no pass submits it, and it is still in the queue
    when its last submission ends. -/
def Guarded (c : ReplayConfig) (w : World) : Action → Prop
  | .processOnce now => ∀ r ∈ (w.due now).head?, r ∉ w.inFlight
  | .settle p outcome _ =>
    match w.passes[p]? with
    | some (r :: rest) =>
      (w.ends c r outcome = true → r ∈ w.queued) ∧ ∀ r' ∈ rest.head?, r' ∈ w.queued ∧ r' ∉ w.inFlight
    | _ => True
  | _ => True

/-- An answer leaves the passes, and the number of items. -/
theorem World.frame_answer (w : World) (r : ℕ) (item : ReplayQueueItem) (outcome : Outcome) (h : Host) :
    (w.answer c r item outcome h).passes = w.passes ∧
      (w.answer c r item outcome h).items.length = w.items.length := by
  cases outcome with
  | resolved => exact ⟨rfl, rfl⟩
  | rejected message =>
    rw [World.answer, World.fail]
    split_ifs
    · exact ⟨rfl, List.length_set⟩
    · exact ⟨rfl, List.length_set⟩

instance (c : ReplayConfig) (w : World) : (a : Action) → Decidable (Guarded c w a)
  | .processOnce now => inferInstanceAs (Decidable (∀ r ∈ (w.due now).head?, r ∉ w.inFlight))
  | .settle p outcome h =>
    match hp : w.passes[p]? with
    | some (r :: rest) =>
      decidable_of_iff ((w.ends c r outcome = true → r ∈ w.queued) ∧
        ∀ r' ∈ rest.head?, r' ∈ w.queued ∧ r' ∉ w.inFlight) (by rw [Guarded, hp])
    | some [] => isTrue (by rw [Guarded, hp]; trivial)
    | none => isTrue (by rw [Guarded, hp]; trivial)
  | .enqueue .. | .remove _ | .replayFromIndex _ => isTrue trivial

namespace Kept
variable {p r : ℕ} {h : Host}

theorem replay (hk : Kept c b w.inFlight w) (hsize : 0 < c.maxQueueSize) (hretries : 0 < c.maxRetries)
    (events : List (Event × Host)) :
    Kept c b (w.replayFromIndex c events).1.inFlight (w.replayFromIndex c events).1 := by
  induction events generalizing w with
  | nil => exact hk
  | cons e events ih =>
    obtain ⟨event, h⟩ := e
    rw [World.replayFromIndex]
    split_ifs with hhas
    · exact ih hk
    · refine ih ?_
      have he := hk.enqueue (h := h) hsize hretries event.eventHash event.eventIndex event.payload
        "manual replay"
      have hpasses : (w.enqueue c event.eventHash event.eventIndex event.payload "manual replay" h).inFlight =
          w.inFlight := by
        rw [World.enqueue, if_neg hhas]
        rfl
      rw [hpasses]
      exact he

/-- A pass that starts, or goes on. -/
theorem resume (pass : List ℕ) (now : ℕ) (hk : Kept c b w.inFlight w) (hp : w.passes[p]? = some [])
    (hpass : pass.Nodup ∧ ∀ r ∈ pass, r < w.items.length)
    (hhead : ∀ r ∈ pass.head?, r ∈ w.queued ∧ r ∉ w.inFlight) :
    Kept c { b with started := b.started ++ pass.head?.toList } (w.resume p pass now).inFlight
      (w.resume p pass now) := by
  cases pass with
  | nil =>
    rw [List.head?_nil, Option.toList_none, List.append_nil]
    exact hk
  | cons r rest =>
    obtain ⟨hr, hsingle⟩ := hhead r rfl
    exact hk.launch hp hpass hr hsingle

theorem processOnce {now : ℕ} (hk : Kept c b w.inFlight w) (hC : Guarded c w (.processOnce now)) :
    Kept c { b with started := b.started ++ (w.due now).head?.toList } (w.processOnce now).inFlight
      (w.processOnce now) := by
  have hflight : ({ w with passes := w.passes ++ [[]] } : World).inFlight = w.inFlight := by
    simp [World.inFlight]
  have hsub : (w.due now).Sublist w.queued := List.filter_sublist
  have hk' : Kept c b ({ w with passes := w.passes ++ [[]] } : World).inFlight
    { w with passes := w.passes ++ [[]] } := by
    rw [hflight]
    refine { hk with passes := fun pass hpass => ?_ }
    rcases List.mem_append.1 hpass with hpass | hpass
    · exact hk.passes pass hpass
    · obtain rfl := List.mem_singleton.1 hpass
      simp
  refine hk'.resume _ _ List.getElem?_concat_length ⟨hsub.nodup hk.nodup_queued, fun r hr => ?_⟩
    fun r hr => ?_
  · exact hk.lt_of_queued (hsub.subset hr)
  · rw [hflight]
    exact ⟨hsub.subset (List.mem_of_mem_head? hr), hC r hr⟩

/-- What the answer to a submission does. -/
theorem answer {flight : List ℕ} {item : ReplayQueueItem} (outcome : Outcome) (h : Host)
    (hk : Kept c b (r :: flight) w) (hitem : w.items[r]? = some item)
    (hends : w.ends c r outcome = true → r ∈ w.queued) :
    Kept c { b with succeeded := b.succeeded ++ outcome.won r } flight
      (w.answer c r item outcome h) := by
  cases outcome with
  | resolved => exact hk.succeed hitem (hends rfl)
  | rejected message =>
    rw [Outcome.won, List.append_nil]
    exact hk.fail hitem

theorem mem_answer {flight : List ℕ} {item : ReplayQueueItem} {outcome : Outcome} {r' : ℕ}
    (hk : Kept c b flight w) (hitem : w.items[r]? = some item)
    (hends : w.ends c r outcome = true → r ∈ w.queued) (hr' : r' ∈ w.queued) (hne : r' ≠ r) :
    r' ∈ (w.answer c r item outcome h).queued := by
  cases outcome with
  | resolved => exact hk.mem_delete hitem (hends rfl) hr' hne
  | rejected message =>
    rw [World.answer, World.fail]
    split_ifs with hlast
    · have hr : r ∈ w.queued := hends (by simpa [World.ends, hitem] using hlast)
      exact (hk.mem_delete hitem hr hr' hne :)
    · exact hr'

theorem settle {outcome : Outcome} (hk : Kept c b w.inFlight w) (hC : Guarded c w (.settle p outcome h))
    (hs : Steps c w (.settle p outcome h) w') :
    Kept c { b with
      started := b.started ++ (w.started (.settle p outcome h)).toList
      succeeded := b.succeeded ++ (w.succeeded (.settle p outcome h)).toList } w'.inFlight w' := by
  rw [Steps, World.exec] at hs
  rw [Guarded] at hC
  cases hp : w.passes[p]? with
  | none => simp [hp] at hs
  | some pass =>
    cases pass with
    | nil => simp [hp] at hs
    | cons r rest =>
      simp only [hp, Option.map_eq_some_iff] at hs hC
      obtain ⟨item, hitem, rfl⟩ := hs
      obtain ⟨hends, hhead⟩ := hC
      obtain ⟨hnodup, hbound⟩ := hk.passes _ (List.mem_of_getElem? hp)
      have hwake := hk.wake hp
      have hanswer := hwake.answer outcome h hitem hends
      obtain ⟨hpasses, hlength⟩ := World.frame_answer (c := c) (w.wake p) r item outcome h
      have hflight : ((w.wake p).answer c r item outcome h).inFlight = (w.wake p).inFlight := by
        rw [World.inFlight, hpasses, World.inFlight]
      rw [← hflight] at hanswer
      have hlt : p < w.passes.length := (List.getElem?_eq_some_iff.1 hp).1
      have hnext := hanswer.resume (p := p) rest h.now
        (by rw [hpasses]; exact List.getElem?_set_self hlt)
        ⟨hnodup.of_cons, fun r' hr' => by rw [hlength]; exact hbound r' (List.mem_cons_of_mem _ hr')⟩
        fun r' hr' => ?_
      · have hstarted : w.started (.settle p outcome h) = rest.head? := by
          rw [World.started, hp]
          rfl
        have hsucceeded : (w.succeeded (.settle p outcome h)).toList = outcome.won r := by
          cases outcome with
          | resolved =>
            rw [World.succeeded, hp]
            rfl
          | rejected message => rfl
        rw [hstarted, hsucceeded]
        exact hnext
      · obtain ⟨hq, hsingle⟩ := hhead r' hr'
        have hne : r' ≠ r := by
          rintro rfl
          exact (List.nodup_cons.1 hnodup).1 (List.mem_of_mem_head? hr')
        refine ⟨hwake.mem_answer hitem hends hq hne, fun hmem => hsingle ?_⟩
        obtain ⟨others, hbefore, hafter⟩ := inFlight_set hp []
        rw [hflight] at hmem
        exact hbefore.mem_iff.2 (List.mem_append_right _ (hafter.mem_iff.1 hmem))

/-- **One step.** -/
theorem step (hk : Kept c b w.inFlight w) (hsize : 0 < c.maxQueueSize) (hretries : 0 < c.maxRetries)
    (hC : Guarded c w a) (hs : Steps c w a w') : Kept c (b.add c w a) w'.inFlight w' := by
  -- the counts of what was removed and dropped are not looked at
  have hbook : ∀ {b' : Book} {flight : List ℕ} {w : World}, Kept c b' flight w → ∀ {b'' : Book},
      b''.started = b'.started → b''.succeeded = b'.succeeded → Kept c b'' flight w := by
    intro b' flight w hk b'' hstarted hsucceeded
    obtain ⟨once, single, retries, capacity, keys, retained, passes, attempts, known, gone⟩ := hk
    rw [← hsucceeded] at once attempts known gone
    rw [← hstarted] at retries attempts known
    exact ⟨once, single, retries, capacity, keys, retained, passes, attempts, known, gone⟩
  cases a with
  | enqueue eventHash eventIndex payload error h =>
    obtain rfl := Option.some.inj hs
    have hflight : (w.enqueue c eventHash eventIndex payload error h).inFlight = w.inFlight := by
      rw [World.enqueue]
      split_ifs <;> rfl
    rw [hflight]
    exact hbook (hk.enqueue hsize hretries eventHash eventIndex payload error) (List.append_nil _)
      (List.append_nil _)
  | remove eventHash =>
    obtain rfl := Option.some.inj hs
    exact hbook (hk.delete eventHash) (List.append_nil _) (List.append_nil _)
  | replayFromIndex events =>
    obtain rfl := Option.some.inj hs
    exact hbook (hk.replay hsize hretries events) (List.append_nil _) (List.append_nil _)
  | processOnce now =>
    obtain rfl := Option.some.inj hs
    exact hbook (hk.processOnce hC) rfl (List.append_nil _)
  | settle p outcome h => exact hbook (hk.settle hC hs) rfl rfl

end Kept

namespace Balanced
variable {p r : ℕ} {h : Host}

theorem enqueue (hb : Balanced b w) (eventHash : String) (eventIndex : ℕ) (payload error : String) :
    Balanced { b with dropped := b.dropped + w.drops c eventHash }
      (w.enqueue c eventHash eventIndex payload error h) := by
  rw [Balanced] at hb ⊢
  by_cases hhas : w.has eventHash = true
  · rw [World.enqueue, if_pos hhas, World.drops, if_pos hhas]
    exact hb
  · have hlength := Kept.length_enqueue (c := c) w eventHash eventIndex payload error h (by simpa using hhas)
    have hstats : (w.enqueue c eventHash eventIndex payload error h).stats.totalEnqueued =
          w.stats.totalEnqueued + 1 ∧
        (w.enqueue c eventHash eventIndex payload error h).stats.totalSucceeded = w.stats.totalSucceeded ∧
        (w.enqueue c eventHash eventIndex payload error h).stats.totalFailed = w.stats.totalFailed := by
      rw [World.enqueue, if_neg hhas]
      exact ⟨rfl, rfl, rfl⟩
    obtain ⟨henqueued, hsucceeded, hfailed⟩ := hstats
    rw [henqueued, hsucceeded, hfailed]
    dsimp only
    omega

theorem replay (hb : Balanced b w) (events : List (Event × Host)) :
    Balanced { b with dropped := b.dropped + w.replayDrops c events } (w.replayFromIndex c events).1 := by
  induction events generalizing w b with
  | nil => exact hb
  | cons e events ih =>
    obtain ⟨event, h⟩ := e
    have he := hb.enqueue (c := c) (h := h) event.eventHash event.eventIndex event.payload "manual replay"
    rw [World.replayFromIndex, World.replayDrops]
    split_ifs with hhas
    · have hsame : w.enqueue c event.eventHash event.eventIndex event.payload "manual replay" h = w := by
        rw [World.enqueue, if_pos hhas]
      rw [hsame] at he ⊢
      rw [← Nat.add_assoc]
      exact ih he
    · rw [← Nat.add_assoc]
      exact ih he

/-- An item that is in the queue is moved to one of the totals. -/
theorem answer {flight : List ℕ} {item : ReplayQueueItem} {outcome : Outcome} (hb : Balanced b w)
    (hk : Kept c b flight w) (hitem : w.items[r]? = some item)
    (hends : w.ends c r outcome = true → r ∈ w.queued) :
    Balanced b (w.answer c r item outcome h) := by
  rw [Balanced] at hb ⊢
  have hlength : r ∈ w.queued → (w.delete item.eventHash).queue.length + 1 = w.queue.length := by
    intro hr
    obtain ⟨eventHash, he⟩ := mem_queued.1 hr
    have hhas : w.has item.eventHash = true := has_iff.2 ⟨_, he, hk.key he hitem⟩
    have hdelete := length_delete w item.eventHash
    rwa [if_pos hhas] at hdelete
  cases outcome with
  | resolved =>
    have hlen := hlength (hends rfl)
    rw [World.answer, World.succeed]
    simp only [World.delete] at hlen ⊢
    omega
  | rejected message =>
    rw [World.answer, World.fail]
    split_ifs with hlast
    · have hlen := hlength (hends (by simpa [World.ends, hitem] using hlast))
      simp only [World.delete] at hlen ⊢
      omega
    · exact hb

theorem step (hb : Balanced b w) (hk : Kept c b w.inFlight w) (hC : Guarded c w a) (hs : Steps c w a w') :
    Balanced (b.add c w a) w' := by
  have hresume : ∀ {b : Book} {w : World} (p : ℕ) (pass : List ℕ) (now : ℕ), Balanced b w →
      Balanced b (w.resume p pass now) := by
    intro b w p pass now hb
    cases pass <;> exact hb
  cases a with
  | enqueue eventHash eventIndex payload error h =>
    obtain rfl := Option.some.inj hs
    exact hb.enqueue eventHash eventIndex payload error
  | remove eventHash =>
    obtain rfl := Option.some.inj hs
    have hlength := length_delete w eventHash
    rw [Balanced] at hb ⊢
    simp only [World.remove, World.delete, Book.add, World.removed, World.dropped] at hlength ⊢
    omega
  | replayFromIndex events =>
    obtain rfl := Option.some.inj hs
    exact hb.replay events
  | processOnce now =>
    obtain rfl := Option.some.inj hs
    exact hresume _ _ _ hb
  | settle p outcome h =>
    rw [Steps, World.exec] at hs
    rw [Guarded] at hC
    cases hp : w.passes[p]? with
    | none => simp [hp] at hs
    | some pass =>
      cases pass with
      | nil => simp [hp] at hs
      | cons r rest =>
        simp only [hp, Option.map_eq_some_iff] at hs hC
        obtain ⟨item, hitem, rfl⟩ := hs
        have hbwake : Balanced b (w.wake p) := hb
        exact hresume _ _ _ (hbwake.answer (hk.wake hp) hitem hC.1)

end Balanced

/-! ## Runs -/

/-- **Everything is accounted for**, in every state of a run whose steps are all guarded. -/
theorem run_accounted (hsize : 0 < c.maxQueueSize) (hretries : 0 < c.maxRetries) (h : Run (Steps c) {} tr w)
    (hC : ∀ p ∈ tr, Guarded c p.1 p.2) :
    (∀ before p after, tr = before ++ p :: after → Accounted c (bookOf c before) p.1) ∧
      Accounted c (bookOf c tr) w := by
  have hkept : ∀ {tr w}, Run (Steps c) {} tr w → (∀ p ∈ tr, Guarded c p.1 p.2) →
      Kept c (bookOf c tr) w.inFlight w ∧ Balanced (bookOf c tr) w := by
    intro tr w hr
    induction hr with
    | init =>
      intro _
      exact ⟨⟨List.nodup_nil, List.nodup_nil, fun _ => Nat.zero_le _, Nat.zero_le _, List.nodup_nil, by simp,
        by simp, by simp, by simp [bookOf, World.inFlight], by simp [bookOf]⟩, rfl⟩
    | @snoc tr w w' a _ hs ih =>
      intro hC
      rw [List.forall_mem_append, List.forall_mem_singleton] at hC
      obtain ⟨hk, hb⟩ := ih hC.1
      rw [bookOf, List.foldl_append]
      exact ⟨hk.step hsize hretries hC.2 hs, hb.step hk hC.2 hs⟩
  have haccounted : ∀ {tr w}, Run (Steps c) {} tr w → (∀ p ∈ tr, Guarded c p.1 p.2) →
      Accounted c (bookOf c tr) w := by
    intro tr w hr hC
    obtain ⟨hk, hb⟩ := hkept hr hC
    exact ⟨hb, hk.once, hk.single, hk.retries, hk.capacity⟩
  refine ⟨?_, haccounted h hC⟩
  rintro before p after rfl
  obtain ⟨_, hr, -⟩ := h.split
  exact haccounted hr fun q hq => hC q (List.mem_append_left _ hq)

/-- One item is submitted twice and succeeds, one is removed, one is dropped. -/
def replayScript : List Action :=
  [.enqueue "a" 1 "x" "" ⟨0, 0⟩, .enqueue "b" 2 "y" "" ⟨0, 0⟩, .enqueue "c" 3 "z" "" ⟨0, 0⟩, .processOnce 5,
    .settle 0 (.rejected "timeout") ⟨6, 0⟩, .settle 0 .resolved ⟨7, 0⟩, .processOnce 8,
      .settle 1 .resolved ⟨9, 0⟩,
    .replayFromIndex [(⟨4, "d", "u"⟩, ⟨9, 0⟩)], .remove "d"]

theorem run_accounted_replayScript :
    ∃ w, replayScript.foldlM (World.exec { maxQueueSize := 2 }) {} = some w ∧
      bookOf { maxQueueSize := 2 } (Run.traceOf (World.exec { maxQueueSize := 2 }) {} replayScript) =
        { removed := 1, dropped := 1, started := [1, 2, 1], succeeded := [2, 1] } ∧
      Accounted { maxQueueSize := 2 }
        (bookOf { maxQueueSize := 2 } (Run.traceOf (World.exec { maxQueueSize := 2 }) {}
          replayScript)) w := by
  refine ⟨_, rfl, by decide, ?_⟩
  have hrun : Run (Steps { maxQueueSize := 2 }) {}
      (Run.traceOf (World.exec { maxQueueSize := 2 }) {} replayScript) _ :=
    Run.of_foldlM (f := World.exec { maxQueueSize := 2 }) (l := replayScript) rfl
  exact (run_accounted (by decide) (by decide) hrun (by decide)).2

/-- The timer starts a second pass while the submission of the first is awaited. -/
def overlapScript : List Action :=
  [.enqueue "a" 1 "x" "" ⟨0, 0⟩, .processOnce 5000, .processOnce 10000, .settle 0 .resolved ⟨10001, 0⟩,
    .settle 1 .resolved ⟨10002, 0⟩]

/-- Both submit the item, and both succeed. -/
theorem submitted_twice :
    ∃ w, Run (Steps {}) {} (Run.traceOf (World.exec {}) {} overlapScript) w ∧
      (∃ p ∈ Run.traceOf (World.exec {}) {} overlapScript, p.1.inFlight = [0, 0]) ∧
      (bookOf {} (Run.traceOf (World.exec {}) {} overlapScript)).succeeded = [0, 0] ∧
      w.stats.totalEnqueued = 1 ∧ w.queue.length + w.stats.totalSucceeded = 2 := by
  refine ⟨_, Run.of_foldlM (f := World.exec {}) (l := overlapScript) rfl, ?_, by decide, by decide, by decide⟩
  exact ⟨_, List.mem_of_getElem? (i := 3) rfl, by decide⟩

end ReplayQueue
