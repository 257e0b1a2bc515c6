/-
  Soroban contracts — lists that are read page by page.

  * `flatMap_windows`, `exists_windows`: the windows of one size, one after the other,
    are the list, and there is a last one;
  * `run_collect`, `run_select`: a loop that fetches the entries of a window returns
    them, or those that pass a test, and writes nothing.
-/
import AuditTransparency.Soroban.Call
import Mathlib.Data.Nat.Notation

namespace Soroban

variable {α : Type}

/-! ## Windows -/

/-- A window of a list, entry by entry. -/
theorem map_range'_getElem? {β γ : Type} {l : List β} {f : ℕ → γ} {g : β → γ} (a n : ℕ)
    (hf : ∀ i x, l[i]? = some x → f i = g x) :
    (List.range' a (min (a + n) l.length - a)).map f = ((l.drop a).take n).map g := by
  refine List.ext_getElem? fun i => ?_
  rw [List.getElem?_map, List.getElem?_map, List.getElem?_take, List.getElem?_drop]
  by_cases hi : i < min (a + n) l.length - a
  · obtain ⟨x, hx⟩ : ∃ x, l[a + i]? = some x := ⟨_, List.getElem?_eq_getElem (by omega)⟩
    rw [List.getElem?_range' hi, if_pos (by omega), hx, Option.map_some, Option.map_some, Nat.one_mul,
      hf _ _ hx]
  · rw [List.getElem?_eq_none (by simpa using hi)]
    split_ifs
    · rw [List.getElem?_eq_none (by omega)]; rfl
    · rfl

/-- Windows of the same size, one after the other. -/
theorem flatMap_windows (l : List α) (k n : ℕ) :
    (List.range n).flatMap (fun p => (l.drop (p * k)).take k) = l.take (n * k) := by
  induction n with
  | zero => simp
  | succ n ih =>
    rw [List.range_succ, List.flatMap_append, ih, List.flatMap_singleton, Nat.succ_mul, List.take_add]

theorem window_ne_nil {l : List α} {k a : ℕ} (hk : 0 < k) (ha : a < l.length) :
    (l.drop a).take k ≠ [] := by
  intro hnil
  have hlen := congrArg List.length hnil
  rw [List.length_take, List.length_drop, List.length_nil] at hlen
  omega

/-- **The windows of a list**: they make up the list, none is empty, and those after them are. -/
theorem exists_windows (l : List α) {k : ℕ} (hk : 0 < k) :
    ∃ ws : List (List α), ws.flatten = l ∧
      (∀ (p : ℕ) w, ws[p]? = some w → w = (l.drop (p * k)).take k ∧ p * k < l.length) ∧
      ∀ p, ws.length ≤ p → l.length ≤ p * k := by
  -- the number of windows
  have hn : l.length ≤ (l.length + k - 1) / k * k := by
    have := Nat.div_add_mod (l.length + k - 1) k
    have := Nat.mod_lt (l.length + k - 1) hk
    rw [Nat.mul_comm]
    omega
  refine ⟨(List.range ((l.length + k - 1) / k)).map fun p => (l.drop (p * k)).take k, ?_,
    fun p w hw => ?_, fun p hp => ?_⟩
  · rw [← List.flatMap_def, flatMap_windows, List.take_of_length_le hn]
  · rw [List.getElem?_map] at hw
    obtain ⟨p', hp', rfl⟩ := Option.map_eq_some_iff.1 hw
    obtain ⟨hlt, rfl⟩ := List.getElem?_eq_some_iff.1 hp'
    rw [List.length_range] at hlt
    rw [List.getElem_range]
    have := (Nat.le_div_iff_mul_le hk).1 hlt
    rw [Nat.succ_mul] at this
    exact ⟨rfl, by omega⟩
  · rw [List.length_map, List.length_range] at hp
    exact Nat.le_trans hn (Nat.mul_le_mul_right k hp)

/-! ## Loops -/

namespace Call

variable {E : Type} {L : Layout} {env : Env} {s : Ledger L} {l : List α} {fetch : ℕ → Call E L α}

/-- **A loop that selects** from a window the entries that pass a test. -/
theorem run_select (hf : ∀ (i : ℕ) x, l[i]? = some x → (fetch i).run env s = .ok (x, s)) (p : α → Bool)
    (a n : ℕ) (found : List α) (hn : n = 0 ∨ a + n ≤ l.length) :
    ((List.range' a n).foldlM (fun found i => do
        let x ← fetch i
        return if p x then found ++ [x] else found) found).run env s =
      .ok (found ++ ((l.drop a).take n).filter p, s) := by
  induction n generalizing a found with
  | zero => simp
  | succ n ih =>
    have ha : a < l.length := by omega
    have hx : l[a]? = some l[a] := List.getElem?_eq_getElem ha
    have hround : (do
        let x ← fetch a
        return if p x then found ++ [x] else found : Call E L (List α)).run env s =
        .ok (if p l[a] then found ++ [l[a]] else found, s) := by
      rw [run_bind_ok _ _ (hf a _ hx), run_pure]
    rw [List.range'_succ, List.foldlM_cons, run_bind_ok _ _ hround, ih _ _ (by omega),
      List.drop_eq_getElem_cons ha, List.take_succ_cons, List.filter_cons]
    split_ifs <;> simp

/-- **A loop that collects** a window. -/
theorem run_collect (hf : ∀ (i : ℕ) x, l[i]? = some x → (fetch i).run env s = .ok (x, s)) (a n : ℕ)
    (hn : n = 0 ∨ a + n ≤ l.length) :
    ((List.range' a n).foldlM (fun found i => do return found ++ [← fetch i]) []).run env s =
      .ok ((l.drop a).take n, s) := by
  have hall := run_select hf (fun _ => true) a n [] hn
  simpa using hall

end Call

end Soroban
