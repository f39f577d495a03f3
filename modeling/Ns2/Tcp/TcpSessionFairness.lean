import Ns2.Tcp.TcpSession

/-! When the search of a session finds data and keeps to the weights. -/

namespace Ns2

namespace TcpSessionAgent

variable {s s' u : TcpSessionAgent} {c : Option ℕ} {k m n : ℕ}

/-- The iterator is at a place of the list. -/
def Placed (s : TcpSessionAgent) : Prop := ∀ k, s.ce = some k → k < s.conns_.length

@[simp] theorem set_cur_conns_ (s : TcpSessionAgent) (c : Option ℕ) :
    (s.set_cur c).conns_ = s.conns_ := rfl

@[simp] theorem set_cur_ce (s : TcpSessionAgent) (c : Option ℕ) : (s.set_cur c).ce = c := rfl

@[simp] theorem set_cur_set_cur (s : TcpSessionAgent) (c d : Option ℕ) :
    (s.set_cur c).set_cur d = s.set_cur d := rfl

theorem Placed.pos_lt (h : s.Placed) (hn : s.conns_ ≠ []) : s.pos < s.conns_.length := by
  have hpos := List.length_pos_iff.mpr hn
  rw [pos]
  cases hc : s.ce with
  | none => simp only [Option.getD_none]; omega
  | some k => exact h k hc

theorem iter_spec (hc : s.ce = some k) (hk : k < s.conns_.length) :
    ∃ c, s.iter = (some ((k + 1) % s.conns_.length), s.set_cur c) ∧ (s.set_cur c).Placed ∧
      (s.set_cur c).pos = (k + 1) % s.conns_.length := by
  have hret : (if k + 1 = s.conns_.length then 0 else k + 1) = (k + 1) % s.conns_.length := by
    by_cases he : k + 1 = s.conns_.length
    · rw [if_pos he, he, Nat.mod_self]
    · rw [if_neg he, Nat.mod_eq_of_lt (by omega)]
  have hlt : (k + 1) % s.conns_.length < s.conns_.length := Nat.mod_lt _ (by omega)
  refine ⟨_, by rw [iter, hc]; dsimp only; rw [hret], ?_, ?_⟩
  · intro m hm
    rw [set_cur_ce] at hm
    split at hm
    · cases hm
    · obtain rfl := Option.some.inj hm
      exact hlt
  · rw [pos, set_cur_ce, set_cur_conns_]
    split
    · simp only [Option.getD_none]
      omega
    · rfl

theorem Placed.next (h : s.Placed) (hn : s.conns_ ≠ []) :
    ∃ c, s.next = (some ((s.pos + 1) % s.conns_.length), s.set_cur c) ∧ (s.set_cur c).Placed ∧
      (s.set_cur c).pos = (s.pos + 1) % s.conns_.length := by
  have hlen := List.length_pos_iff.mpr hn
  cases hc : s.ce with
  | some k =>
    obtain ⟨c, h1, h2, h3⟩ := iter_spec hc (h k hc)
    have hpos : s.pos = k := by rw [pos, hc]; rfl
    exact ⟨c, by rw [TcpSessionAgent.next, h1, hpos], h2, by rw [h3, hpos]⟩
  | none =>
    have hpos : s.pos = s.conns_.length - 1 := by rw [pos, hc]; rfl
    have hlast : (s.set_cur s.get_last).ce = some (s.conns_.length - 1) := by
      rw [set_cur_ce, get_last, if_neg (by omega)]
    obtain ⟨c, h1, h2, h3⟩ := iter_spec hlast (by rw [set_cur_conns_]; omega)
    have hnone : s.iter = (none, s) := by rw [iter, hc]
    rw [set_cur_set_cur] at h1 h2 h3
    exact ⟨c, by rw [TcpSessionAgent.next, hnone]; dsimp only; rw [h1, hpos, set_cur_conns_], h2,
      by rw [h3, hpos, set_cur_conns_]⟩

/-- What a search may change: the iterator and the dynamic weights, which only fall. -/
structure Spent (s u : TcpSessionAgent) : Prop where
  length : u.conns_.length = s.conns_.length
  wt : ∀ k, u.wt k = s.wt k
  data : ∀ k, u.data_left_to_send k = s.data_left_to_send k
  le : ∀ k, u.dynWt k ≤ s.dynWt k
  nonneg : ∀ k, 0 ≤ s.dynWt k → 0 ≤ u.dynWt k

theorem Spent.trans (h : s.Spent s') (h' : s'.Spent u) : s.Spent u where
  length := h'.length.trans h.length
  wt k := (h'.wt k).trans (h.wt k)
  data k := (h'.data k).trans (h.data k)
  le k := (h'.le k).trans (h.le k)
  nonneg k hk := h'.nonneg k (h.nonneg k hk)

theorem Spent.of_set_cur (s : TcpSessionAgent) (c : Option ℕ) : s.Spent (s.set_cur c) where
  length := rfl
  wt _ := rfl
  data _ := rfl
  le _ := le_rfl
  nonneg _ hk := hk

theorem spend_of_pos (h : 0 < s.dynWt k) : (s.spend k).1 = true ∧ s.Spent (s.spend k).2 ∧
    (s.spend k).2.ce = s.ce ∧
    ∀ m, (s.spend k).2.dynWt m = if m = k then s.dynWt k - 1 else s.dynWt m := by
  have hdyn : ∀ m, (s.spend k).2.dynWt m = if m = k then s.dynWt k - 1 else s.dynWt m := by
    intro m
    rw [spend, if_pos h]
    simp only [dynWt, List.getElem?_modify]
    by_cases hm : m = k
    · subst hm
      rw [if_pos rfl]
      cases hk : s.conns_[m]? with
      | none => simp [dynWt, hk] at h
      | some a => simp
    · have hkm : k ≠ m := fun he => hm he.symm
      cases hk : s.conns_[m]? <;> simp [hm, hkm]
  have hread : ∀ m, (s.spend k).2.wt m = s.wt m ∧
      (s.spend k).2.data_left_to_send m = s.data_left_to_send m := by
    intro m
    rw [spend, if_pos h]
    simp only [wt, data_left_to_send, List.getElem?_modify]
    by_cases hkm : k = m <;> cases s.conns_[m]? <;> simp [hkm, IntTcpAgent.data_left_to_send]
  refine ⟨by rw [spend, if_pos h], ⟨?_, fun m => (hread m).1, fun m => (hread m).2, ?_, ?_⟩,
    by rw [spend, if_pos h], hdyn⟩
  · rw [spend, if_pos h]
    simp
  · intro m
    rw [hdyn m]
    split
    · next hm => rw [hm]; omega
    · exact le_rfl
  · intro m hm
    rw [hdyn m]
    split
    · omega
    · exact hm

theorem spend_of_not_pos (h : ¬ 0 < s.dynWt k) : s.spend k = (false, s) := if_neg h

theorem spend_spec (s : TcpSessionAgent) (k : ℕ) :
    s.Spent (s.spend k).2 ∧ (s.spend k).2.ce = s.ce := by
  by_cases h : 0 < s.dynWt k
  · obtain ⟨-, h1, h2, -⟩ := spend_of_pos h
    exact ⟨h1, h2⟩
  · rw [spend_of_not_pos h]
    exact ⟨.of_set_cur s s.ce, rfl⟩

/-- A visit that does not end the search leaves the good connections good. -/
theorem good_spend (h : ¬ s.Good k) : (s.spend k).2.Good m ↔ s.Good m := by
  by_cases hk : 0 < s.dynWt k
  · obtain ⟨-, hsp, -, hdyn⟩ := spend_of_pos hk
    rw [Good, Good, hsp.data m, hdyn m]
    split
    · next hm =>
      subst hm
      have hno : s.data_left_to_send m = false := by
        by_contra hd
        exact h ⟨by simpa using hd, hk⟩
      simp [hno]
    · rfl
  · rw [spend_of_not_pos hk]

theorem goes_on_iff : (!s.data_left_to_send k || !(s.spend k).1) = true ↔ ¬ s.Good k := by
  rw [Good]
  by_cases hk : 0 < s.dynWt k
  · rw [(spend_of_pos hk).1]
    simp [hk]
  · rw [spend_of_not_pos hk]
    simp [hk]

theorem placed_of_length (h : s.Placed) (hc : u.ce = s.ce)
    (hl : u.conns_.length = s.conns_.length) : u.Placed ∧ u.pos = s.pos := by
  refine ⟨fun k hk => ?_, by rw [pos, pos, hc, hl]⟩
  rw [hl]
  exact h k (hc ▸ hk)

/-- The search ends at the first good connection, or after its last round. -/
theorem fineLoop_spec (h : s.Placed) (hn : s.conns_ ≠ []) :
    ∃ k u, fineLoop (n + 1) s = some (k, u) ∧ s.Spent u ∧ u.Placed ∧
      ((s.Good k ∧ u.dynWt k < s.dynWt k) ∨
        (k = (s.pos + (n + 1)) % s.conns_.length ∧
          ∀ i ≤ n, ¬ s.Good ((s.pos + (i + 1)) % s.conns_.length))) := by
  induction n generalizing s with
  | zero =>
    obtain ⟨c, hnext, hplaced, hpos⟩ := h.next hn
    let q := (s.pos + 1) % s.conns_.length
    obtain ⟨hspent, hce⟩ := spend_spec (s.set_cur c) q
    refine ⟨q, ((s.set_cur c).spend q).2, ?_, (Spent.of_set_cur s c).trans hspent,
      (placed_of_length hplaced hce hspent.length).1, ?_⟩
    · simp [fineLoop, hnext, q]
    · by_cases hg : s.Good q
      · have hlt := (spend_of_pos (s := s.set_cur c) hg.2).2.2.2 q
        rw [if_pos rfl] at hlt
        refine .inl ⟨hg, ?_⟩
        have : (s.set_cur c).dynWt q = s.dynWt q := rfl
        omega
      · refine .inr ⟨rfl, fun i hi => ?_⟩
        obtain rfl : i = 0 := by omega
        exact hg
  | succ n ih =>
    obtain ⟨c, hnext, hplaced, hpos⟩ := h.next hn
    let q := (s.pos + 1) % s.conns_.length
    obtain ⟨hspent, hce⟩ := spend_spec (s.set_cur c) q
    obtain ⟨hplaced', hpos'⟩ := placed_of_length hplaced hce hspent.length
    by_cases hg : s.Good q
    · have hstop : ¬ (!(s.set_cur c).data_left_to_send q || !((s.set_cur c).spend q).1) = true :=
        fun hgo => goes_on_iff.mp hgo hg
      refine ⟨q, ((s.set_cur c).spend q).2, ?_, (Spent.of_set_cur s c).trans hspent, hplaced',
        .inl ⟨hg, ?_⟩⟩
      · rw [fineLoop, hnext]
        dsimp only
        rw [if_neg (fun hgo => hstop (Bool.and_eq_true_iff.mp hgo).1)]
      · have hlt := (spend_of_pos (s := s.set_cur c) hg.2).2.2.2 q
        rw [if_pos rfl] at hlt
        have : (s.set_cur c).dynWt q = s.dynWt q := rfl
        omega
    · have hgo : (!(s.set_cur c).data_left_to_send q || !((s.set_cur c).spend q).1) = true :=
        goes_on_iff.mpr hg
      have hlen : ((s.set_cur c).spend q).2.conns_.length = s.conns_.length := hspent.length
      have hn' : ((s.set_cur c).spend q).2.conns_ ≠ [] := by
        rw [← List.length_pos_iff, hlen]
        exact List.length_pos_iff.mpr hn
      obtain ⟨k, u, h1, h2, h3, h4⟩ := ih hplaced' hn'
      have hgood : ∀ m, ((s.set_cur c).spend q).2.Good m ↔ s.Good m := fun m =>
        good_spend (s := s.set_cur c) hg
      refine ⟨k, u, ?_, ((Spent.of_set_cur s c).trans hspent).trans h2, h3, ?_⟩
      · rw [fineLoop, hnext]
        dsimp only
        rw [if_pos (by rw [Bool.and_eq_true_iff]; exact ⟨hgo, by simp⟩), h1]
      · obtain ⟨hk, hlt⟩ | ⟨hk, hnone⟩ := h4
        · exact .inl ⟨(hgood k).mp hk, hlt.trans_le (hspent.le k)⟩
        · rw [hlen, hpos', hpos, Nat.mod_add_mod] at hk
          rw [hlen, hpos', hpos] at hnone
          refine .inr ⟨by rw [hk]; congr 1; omega, fun i hi => ?_⟩
          cases i with
          | zero => exact hg
          | succ i =>
            have := hnone i (by omega)
            rw [hgood, Nat.mod_add_mod] at this
            convert this using 3
            omega

/-- A whole search: it ends at a good connection, or where it began if there is none. -/
theorem search_spec (h : s.Placed) (hn : s.conns_ ≠ []) :
    ∃ k u, fineLoop s.conns_.length s = some (k, u) ∧ s.Spent u ∧ u.Placed ∧
      ((s.Good k ∧ u.dynWt k < s.dynWt k) ∨ (k = s.pos ∧ ∀ m, ¬ s.Good m)) := by
  have hlen := List.length_pos_iff.mpr hn
  have hpos := h.pos_lt hn
  obtain ⟨n, hn'⟩ : ∃ n, s.conns_.length = n + 1 := ⟨s.conns_.length - 1, by omega⟩
  obtain ⟨k, u, h1, h2, h3, h4⟩ := fineLoop_spec (n := n) h hn
  refine ⟨k, u, by rw [hn', h1], h2, h3, h4.imp_right fun ⟨hk, hnone⟩ => ⟨?_, fun m hm => ?_⟩⟩
  · rw [hk, ← hn', Nat.add_mod_right, Nat.mod_eq_of_lt hpos]
  · have hmlt : m < s.conns_.length := by
      by_contra hge
      have := hm.1
      rw [data_left_to_send, List.getElem?_eq_none (by omega)] at this
      cases this
    by_cases hle : m ≤ s.pos
    · refine hnone (n - (s.pos - m)) (by omega) ?_
      have he : s.pos + (n - (s.pos - m) + 1) = m + s.conns_.length := by omega
      rwa [he, Nat.add_mod_right, Nat.mod_eq_of_lt hmlt]
    · refine hnone (m - s.pos - 1) (by omega) ?_
      have he : s.pos + (m - s.pos - 1 + 1) = m := by omega
      rwa [he, Nat.mod_eq_of_lt hmlt]

theorem wt_reset_dyn_weights (s : TcpSessionAgent) (k : ℕ) : s.reset_dyn_weights.wt k = s.wt k := by
  simp only [wt, reset_dyn_weights, List.getElem?_map]
  cases s.conns_[k]? <;> rfl

theorem dynWt_reset_dyn_weights (s : TcpSessionAgent) (k : ℕ) :
    s.reset_dyn_weights.dynWt k = s.wt k := by
  simp only [wt, dynWt, reset_dyn_weights, List.getElem?_map]
  cases s.conns_[k]? <;> rfl

theorem data_reset_dyn_weights (s : TcpSessionAgent) (k : ℕ) :
    s.reset_dyn_weights.data_left_to_send k = s.data_left_to_send k := by
  simp only [data_left_to_send, reset_dyn_weights, List.getElem?_map]
  cases s.conns_[k]? <;> rfl

theorem length_reset_dyn_weights (s : TcpSessionAgent) :
    s.reset_dyn_weights.conns_.length = s.conns_.length := by simp [reset_dyn_weights]

theorem wt_modify (f : IntTcpAgent → IntTcpAgent) (hs : s'.conns_ = s.conns_.modify k f) (m : ℕ) :
    s'.wt m = if m = k then s.conns_[k]?.elim 0 fun a => (f a).wt_ else s.wt m := by
  simp only [wt, hs, List.getElem?_modify]
  by_cases hm : m = k
  · subst hm
    cases s.conns_[m]? <;> simp
  · have hkm : k ≠ m := fun he => hm he.symm
    cases s.conns_[m]? <;> simp [hm, hkm]

theorem dynWt_modify (f : IntTcpAgent → IntTcpAgent) (hs : s'.conns_ = s.conns_.modify k f)
    (hf : ∀ a, (f a).dynWt_ = a.dynWt_) (m : ℕ) : s'.dynWt m = s.dynWt m := by
  simp only [dynWt, hs, List.getElem?_modify]
  by_cases hm : k = m <;> cases s.conns_[m]? <;> simp [hm, hf]

theorem any_data_iff (s : TcpSessionAgent) :
    s.conns_.any (·.data_left_to_send) = true ↔ ∃ k, s.data_left_to_send k = true := by
  rw [List.any_eq_true]
  constructor
  · rintro ⟨a, ha, hd⟩
    obtain ⟨k, hk⟩ := List.getElem?_of_mem ha
    exact ⟨k, by rw [data_left_to_send, hk]; exact hd⟩
  · rintro ⟨k, hk⟩
    rw [data_left_to_send] at hk
    obtain ⟨a, ha, hd⟩ := (Option.any_eq_true _ _).mp hk
    exact ⟨a, List.mem_of_getElem? ha, hd⟩

end TcpSessionAgent

namespace SessionTrace

open TcpSessionAgent

variable {t : SessionTrace} {s u : TcpSessionAgent} {k : ℕ}

/-- What holds of a trace in which every search was right. -/
structure Kept (t : SessionTrace) : Prop where
  placed : t.agent.Placed
  wt_nonneg : ∀ k, 0 ≤ t.agent.wt k
  dynWt_nonneg : ∀ k, 0 ≤ t.agent.dynWt k
  within : ∀ k, (t.chosen k : ℤ) + t.agent.dynWt k ≤ t.given k
  served : t.served = true

theorem Kept.fair (h : t.Kept) : t.Fair := by
  refine ⟨h.served, fun k => ?_⟩
  have h1 := h.within k
  have h2 := h.dynWt_nonneg k
  omega

theorem kept_new : new.Kept where
  placed _ hk := by cases hk
  wt_nonneg _ := by simp [new, TcpSessionAgent.new, wt]
  dynWt_nonneg _ := by simp [new, TcpSessionAgent.new, dynWt]
  within _ := by simp [new, TcpSessionAgent.new, dynWt]
  served := rfl

theorem Kept.restart (h : t.Kept) (hp : s.Placed) (hw : ∀ k, 0 ≤ s.wt k) :
    (t.restart s.reset_dyn_weights).Kept where
  placed := (placed_of_length (u := s.reset_dyn_weights) hp rfl (length_reset_dyn_weights s)).1
  wt_nonneg k := by
    change 0 ≤ s.reset_dyn_weights.wt k
    rw [wt_reset_dyn_weights]
    exact hw k
  dynWt_nonneg k := by
    change 0 ≤ s.reset_dyn_weights.dynWt k
    rw [dynWt_reset_dyn_weights]
    exact hw k
  within k := by
    change ((0 : ℕ) : ℤ) + s.reset_dyn_weights.dynWt k ≤ s.reset_dyn_weights.wt k
    rw [dynWt_reset_dyn_weights, wt_reset_dyn_weights]
    simp
  served := h.served

theorem Kept.renewed (h : t.Kept) : t.renewed.Kept := by
  rw [SessionTrace.renewed]
  split
  · exact h.restart h.placed h.wt_nonneg
  · exact h

/-- An operation that leaves the dynamic weights and the length alone. -/
theorem Kept.of_agent (h : t.Kept) (hp : s.Placed) (hw : ∀ k, 0 ≤ s.wt k)
    (hd : ∀ k, s.dynWt k = t.agent.dynWt k) : ({ t with agent := s } : SessionTrace).Kept where
  placed := hp
  wt_nonneg := hw
  dynWt_nonneg k := (h.dynWt_nonneg k).trans_eq (hd k).symm
  within k := by
    change (t.chosen k : ℤ) + s.dynWt k ≤ t.given k
    rw [hd k]
    exact h.within k
  served := h.served

theorem renewed_agent (t : SessionTrace) : t.renewed.agent = t.agent.renewed := by
  rw [SessionTrace.renewed, TcpSessionAgent.renewed]
  split <;> rfl

theorem data_renewed (s : TcpSessionAgent) (k : ℕ) :
    s.renewed.data_left_to_send k = s.data_left_to_send k := by
  rw [TcpSessionAgent.renewed]
  split
  · exact data_reset_dyn_weights s k
  · rfl

theorem length_renewed (s : TcpSessionAgent) : s.renewed.conns_.length = s.conns_.length := by
  rw [TcpSessionAgent.renewed]
  split
  · exact length_reset_dyn_weights s
  · rfl

theorem pos_renewed (s : TcpSessionAgent) : s.renewed.pos = s.pos := by
  have hc : s.renewed.ce = s.ce := by
    rw [TcpSessionAgent.renewed]
    split <;> rfl
  rw [pos, pos, hc, length_renewed]

/-- A search, as seen from the trace: it chooses a good connection, or falls back to the last. -/
theorem Kept.search (h : t.Kept) (hn : t.agent.conns_ ≠ []) :
    ∃ k u, t.agent.fine = some (if t.agent.data_left_to_send k then some k else none, u) ∧
      t.renewed.agent.Spent u ∧ u.Placed ∧
      ((t.renewed.agent.Good k ∧ u.dynWt k < t.renewed.agent.dynWt k) ∨
        (k = t.agent.pos ∧ ∀ m, ¬ t.renewed.agent.Good m)) := by
  have hplaced := h.renewed.placed
  rw [renewed_agent] at hplaced ⊢
  have hn' : t.agent.renewed.conns_ ≠ [] := by
    rw [← List.length_pos_iff, length_renewed]
    exact List.length_pos_iff.mpr hn
  obtain ⟨k, u, h1, h2, h3, h4⟩ := search_spec hplaced hn'
  rw [pos_renewed] at h4
  refine ⟨k, u, ?_, h2, h3, h4⟩
  rw [fine, h1, Option.map_some]
  dsimp only
  rw [h2.data k, data_renewed]

theorem serves_of_data (h : s.data_left_to_send k = true) : serves s (some k) = true := h

theorem serves_none_iff : serves s none = true ↔ ∀ k, s.data_left_to_send k = false := by
  rw [serves, Bool.not_eq_true', ← Bool.not_eq_true, any_data_iff, not_exists]
  simp

/-- A search that chooses `k` with room in its weight. -/
theorem Kept.choose (h : t.Kept) (hs : t.renewed.agent.Spent u) (hp : u.Placed)
    (hd : t.agent.data_left_to_send k = true)
    (hroom : (t.renewed.chosen k : ℤ) + 1 + u.dynWt k ≤ t.renewed.given k) :
    (t.searched (some k) u).Kept where
  placed := hp
  wt_nonneg m := (h.renewed.wt_nonneg m).trans_eq (hs.wt m).symm
  dynWt_nonneg m := hs.nonneg m (h.renewed.dynWt_nonneg m)
  within m := by
    change ((Function.update t.renewed.chosen k (t.renewed.chosen k + 1) m : ℕ) : ℤ) + u.dynWt m ≤
      t.renewed.given m
    by_cases hm : m = k
    · rw [hm, Function.update_self]
      push_cast
      exact hroom
    · rw [Function.update_of_ne hm]
      have h1 := h.renewed.within m
      have h2 := hs.le m
      omega
  served := by
    change (t.served && serves t.agent (some k)) = true
    rw [h.served, serves_of_data hd]
    rfl

theorem Kept.choose_none (h : t.Kept) (hs : t.renewed.agent.Spent u) (hp : u.Placed)
    (hd : ∀ k, t.agent.data_left_to_send k = false) : (t.searched none u).Kept where
  placed := hp
  wt_nonneg m := (h.renewed.wt_nonneg m).trans_eq (hs.wt m).symm
  dynWt_nonneg m := hs.nonneg m (h.renewed.dynWt_nonneg m)
  within m := by
    change (t.renewed.chosen m : ℤ) + u.dynWt m ≤ t.renewed.given m
    have h1 := h.renewed.within m
    have h2 := hs.le m
    omega
  served := by
    change (t.served && serves t.agent none) = true
    rw [h.served, serves_none_iff.mpr hd]
    rfl

theorem good_renewed_data (h : t.renewed.agent.Good k) : t.agent.data_left_to_send k = true := by
  have := h.1
  rwa [renewed_agent, data_renewed] at this

theorem Kept.safe_search (h : t.Kept) (hsafe : t.Safe) :
    ∃ r u, t.agent.fine = some (r, u) ∧ (t.searched r u).Kept := by
  obtain ⟨hn, hcase⟩ := hsafe
  obtain ⟨k, u, h1, h2, h3, h4⟩ := h.search hn
  obtain ⟨hgood, hlt⟩ | ⟨rfl, hnone⟩ := h4
  · have hd := good_renewed_data hgood
    rw [if_pos hd] at h1
    refine ⟨some k, u, h1, h.choose h2 h3 hd ?_⟩
    have := h.renewed.within k
    omega
  · obtain ⟨m, hm⟩ | hno | ⟨hd, hroom⟩ := hcase
    · exact absurd hm (hnone m)
    · rw [if_neg (by simp [hno])] at h1
      exact ⟨none, u, h1, h.choose_none h2 h3 hno⟩
    · rw [if_pos hd] at h1
      refine ⟨_, u, h1, h.choose h2 h3 hd ?_⟩
      have hzero : ¬ 0 < t.renewed.agent.dynWt t.agent.pos := fun hpos => by
        refine hnone _ ⟨?_, hpos⟩
        rwa [renewed_agent, data_renewed]
      have := h2.le t.agent.pos
      omega

theorem Kept.unsafe_search (h : t.Kept) (hsafe : ¬ t.Safe) {r : Option ℕ}
    (hf : t.agent.fine = some (r, u)) : ¬ (t.searched r u).Fair := by
  have hn : t.agent.conns_ ≠ [] := by
    intro hnil
    have hlen : t.agent.renewed.conns_.length = 0 := by rw [length_renewed, hnil]; rfl
    rw [fine, hlen] at hf
    cases hf
  rw [Safe, not_and, not_or, not_or, not_exists, not_and] at hsafe
  obtain ⟨hnone, hsome, hroom⟩ := hsafe hn
  obtain ⟨k, u', h1, h2, h3, h4⟩ := h.search hn
  obtain ⟨hgood, -⟩ | ⟨rfl, -⟩ := h4
  · exact absurd hgood (hnone k)
  · rintro ⟨hserved, hwithin⟩
    rw [h1] at hf
    obtain ⟨rfl, rfl⟩ := Prod.mk.inj (Option.some.inj hf)
    by_cases hd : t.agent.data_left_to_send t.agent.pos = true
    · rw [if_pos hd] at hwithin
      have hlt := hroom hd
      have hle := hwithin t.agent.pos
      change ((Function.update t.renewed.chosen t.agent.pos _ t.agent.pos : ℕ) : ℤ) ≤
        t.renewed.given t.agent.pos at hle
      rw [Function.update_self] at hle
      push_cast at hle
      omega
    · rw [if_neg hd] at hserved
      change (t.served && serves t.agent none) = true at hserved
      exact hsome (serves_none_iff.mp (Bool.and_eq_true_iff.mp hserved).2)

theorem Kept.add_agent (h : t.Kept) (a : IntTcpAgent) (ha : 0 ≤ a.wt_) :
    (t.restart (t.agent.add_agent a)).Kept := by
  rw [TcpSessionAgent.add_agent]
  refine h.restart ?_ ?_
  · split
    · exact h.placed
    · intro k hk
      have := h.placed k hk
      simp only [List.length_append, List.length_singleton]
      omega
  · intro k
    split
    · exact h.wt_nonneg k
    · simp only [wt, List.getElem?_append]
      split
      · exact h.wt_nonneg k
      · cases hk : [a][k - t.agent.conns_.length]? with
        | none => simp
        | some b =>
          have hb : b = a := by simpa using List.mem_of_getElem? hk
          rw [hb]
          exact ha

theorem Kept.set_weight (h : t.Kept) (k wt : ℕ) :
    ({ t with agent := t.agent.set_weight k wt } : SessionTrace).Kept := by
  refine h.of_agent ?_ (fun m => ?_) (dynWt_modify _ rfl fun _ => rfl)
  · exact (placed_of_length (u := t.agent.set_weight k wt) h.placed rfl
      (by simp [TcpSessionAgent.set_weight])).1
  · rw [@wt_modify t.agent (t.agent.set_weight k wt) k _ rfl]
    split
    · cases t.agent.conns_[k]? <;> simp
    · exact h.wt_nonneg m

theorem Kept.set_data (h : t.Kept) (k : ℕ) (curseq t_seqno : ℤ) :
    ({ t with agent := t.agent.set_data k curseq t_seqno } : SessionTrace).Kept := by
  refine h.of_agent ?_ (fun m => ?_) (dynWt_modify _ rfl fun _ => rfl)
  · exact (placed_of_length (u := t.agent.set_data k curseq t_seqno) h.placed rfl
      (by simp [TcpSessionAgent.set_data])).1
  · rw [@wt_modify t.agent (t.agent.set_data k curseq t_seqno) k _ rfl]
    split
    · exact h.wt_nonneg k
    · exact h.wt_nonneg m

theorem Kept.resetwt (h : t.Kept) : ({ t with agent := t.agent.resetwt } : SessionTrace).Kept := by
  refine h.of_agent ?_ (fun m => ?_) fun m => ?_
  · exact (placed_of_length (u := t.agent.resetwt) h.placed rfl
      (by simp [TcpSessionAgent.resetwt])).1
  · simp only [wt, TcpSessionAgent.resetwt, List.getElem?_map]
    cases t.agent.conns_[m]? <;> simp
  · simp only [dynWt, TcpSessionAgent.resetwt, List.getElem?_map]
    cases t.agent.conns_[m]? <;> rfl

/-- A step of the iterator moves the iterator only. -/
theorem iter_placed (h : s.Placed) : ∃ c, s.iter.2 = s.set_cur c ∧ (s.set_cur c).Placed := by
  cases hc : s.ce with
  | none =>
    have hstay : s.iter = (none, s) := by rw [TcpSessionAgent.iter, hc]
    exact ⟨s.ce, by rw [hstay]; rfl, h⟩
  | some k =>
    obtain ⟨c, h1, h2, -⟩ := iter_spec hc (h k hc)
    exact ⟨c, by rw [h1], h2⟩

theorem iterate_placed (h : s.Placed) (n : ℕ) :
    ∃ c, (fun s' : TcpSessionAgent => s'.iter.2)^[n] s = s.set_cur c ∧ (s.set_cur c).Placed := by
  induction n with
  | zero => exact ⟨s.ce, rfl, h⟩
  | succ n ih =>
    obtain ⟨c, h1, h2⟩ := ih
    obtain ⟨d, h3, h4⟩ := iter_placed h2
    rw [set_cur_set_cur] at h3 h4
    exact ⟨d, by rw [Function.iterate_succ_apply', h1, h3], h4⟩

theorem Kept.random (h : t.Kept) (foo : ℕ) :
    ({ t with agent := (t.agent.random foo).2 } : SessionTrace).Kept := by
  have hlast : (t.agent.set_cur t.agent.get_last).Placed := by
    intro k hk
    rw [set_cur_ce, get_last] at hk
    split at hk
    · cases hk
    · obtain rfl := Option.some.inj hk
      rw [set_cur_conns_]
      omega
  obtain ⟨c, h1, h2⟩ := iterate_placed hlast foo
  obtain ⟨d, h3, h4⟩ := iter_placed h2
  rw [set_cur_set_cur, set_cur_set_cur] at h3
  rw [set_cur_set_cur, set_cur_set_cur] at h4
  have hrand : (t.agent.random foo).2 = t.agent.set_cur d := by
    rw [TcpSessionAgent.random, h1, set_cur_set_cur, h3]
  rw [hrand]
  exact h.of_agent h4 h.wt_nonneg fun _ => rfl

/-- What a coarse search adds to a fine one does not matter here. -/
theorem kept_coarse {r : Option ℕ} {c : Option ℕ} {n : ℤ} : (t.searched r
    { u with
      curConn_ := c
      numConsecSegs_ := n }).Kept ↔ (t.searched r u).Kept :=
  ⟨fun h => ⟨h.placed, h.wt_nonneg, h.dynWt_nonneg, h.within, h.served⟩,
    fun h => ⟨h.placed, h.wt_nonneg, h.dynWt_nonneg, h.within, h.served⟩⟩

theorem Kept.step (h : t.Kept) {o : SessionOp} (ho : t.Ok o) :
    ∃ t' r, t.step o = some (t', r) ∧ t'.Kept := by
  cases o with
  | add_agent wt dynWt curseq t_seqno => exact ⟨_, _, rfl, h.add_agent _ (by simp)⟩
  | setwt k wt => exact ⟨_, _, rfl, h.set_weight k wt⟩
  | setwt_refused old wt => exact ⟨_, _, rfl, h.of_agent h.placed h.wt_nonneg fun _ => rfl⟩
  | resetwt => exact ⟨_, _, rfl, h.resetwt⟩
  | set_data k curseq t_seqno => exact ⟨_, _, rfl, h.set_data k curseq t_seqno⟩
  | fine =>
    obtain ⟨r, u, hf, hkept⟩ := h.safe_search ho
    exact ⟨_, r, by rw [SessionTrace.step, hf]; rfl, hkept⟩
  | coarse window =>
    obtain ⟨hdiv, hsafe⟩ := ho
    cases hs : t.agent.staysOn window with
    | none => exact absurd hs hdiv
    | some b =>
      cases b with
      | true =>
        refine ⟨_, _, by rw [SessionTrace.step, coarse, hs]; rfl, ?_⟩
        rw [if_pos rfl]
        exact h.of_agent h.placed h.wt_nonneg fun _ => rfl
      | false =>
        obtain ⟨r, u, hf, hkept⟩ := h.safe_search (hsafe hs)
        refine ⟨_, r, by rw [SessionTrace.step, coarse, hs, hf]; rfl, ?_⟩
        rw [if_neg (by simp)]
        exact kept_coarse.mpr hkept
  | random foo => exact ⟨_, _, rfl, h.random foo⟩

theorem Kept.breaks (h : t.Kept) {o : SessionOp} (ho : ¬ t.Ok o) {t' : SessionTrace}
    {r : Option ℕ} (hs : t.step o = some (t', r)) : ¬ t'.Fair := by
  cases o with
  | fine =>
    obtain ⟨⟨r', u⟩, hf, he⟩ := Option.map_eq_some_iff.mp hs
    obtain ⟨rfl, -⟩ := Prod.mk.inj he
    exact h.unsafe_search ho hf
  | coarse window =>
    rw [SessionTrace.step, coarse] at hs
    cases hst : t.agent.staysOn window with
    | none => simp [hst] at hs
    | some b =>
      cases b with
      | true => exact absurd ⟨by simp [hst], by simp [hst]⟩ ho
      | false =>
        have hsafe : ¬ t.Safe := fun hsafe => ho ⟨by simp [hst], fun _ => hsafe⟩
        rw [hst] at hs
        obtain ⟨⟨r', u⟩, hf, he⟩ := Option.map_eq_some_iff.mp hs
        obtain ⟨⟨r'', u'⟩, hf', he'⟩ := Option.map_eq_some_iff.mp hf
        obtain ⟨rfl, rfl⟩ := Prod.mk.inj he'
        obtain ⟨rfl, -⟩ := Prod.mk.inj he
        rw [if_neg (by simp)]
        exact fun hfair => h.unsafe_search hsafe hf' ⟨hfair.1, hfair.2⟩
  | add_agent | setwt | setwt_refused | resetwt | set_data | random => exact absurd trivial ho

/-- The searches of a history are right exactly when each of them is safe. -/
theorem fair_iff (ops : List SessionOp) :
    Machine.Always SessionTrace.step Fair new ops ↔ Machine.Admits SessionTrace.step Ok new ops :=
  Machine.always_iff (fun _ h => h.fair) (fun _ _ h ho => h.step ho)
    (fun _ _ _ _ h ho hs => h.breaks ho hs) kept_new ops

theorem not_always_fair {ops : List SessionOp}
    (h : (Machine.run SessionTrace.step new ops).map (fun r => (r.1.served, decide
      ((r.1.chosen 0 : ℤ) ≤ r.1.given 0))) ≠ some (true, true)) :
    ¬ Machine.Always SessionTrace.step Fair new ops := by
  intro hall
  obtain ⟨t, os, ht, hserved, hwithin⟩ := hall.run
  rw [ht, Option.map_some, hserved, decide_eq_true (hwithin 0)] at h
  exact h rfl

/-- The first connection has used its weight of one: it is passed over for the second, which has
nothing more to send, and nothing is chosen. And a connection of weight one is chosen twice while
the weight of five is spent on a connection without data. -/
theorem data_passed_over :
    ¬ Machine.Always SessionTrace.step Fair new [.add_agent 1 0 5 0, .add_agent 5 0 5 0, .fine,
      .fine, .set_data 1 5 5, .fine] ∧
    ¬ Machine.Always SessionTrace.step Fair new [.add_agent 1 0 5 0, .add_agent 5 0 0 0, .fine,
      .fine] :=
  ⟨not_always_fair (by decide), not_always_fair (by decide)⟩

end SessionTrace

end Ns2
