import Ns2.Aomdv.Aomdv

/-! What an AOMDV routing entry satisfies while paths come and go, and what of it lasts. -/

namespace Ns2

namespace AomdvPath

/-- A path without its time of expiry. -/
def key (p : AomdvPath) : ℤ × ℕ × ℤ := (p.nexthop, p.hopcount, p.lasthop)

end AomdvPath

namespace AomdvRtEntry

/-- An entry for `d` at node `n`, where `Told j d s h` says that `j` has sent the hop count `h` about
`d` under the sequence number `s`. -/
structure Ok (Told : ℤ → ℤ → ℕ → ℕ → Prop) (max n d : ℤ) (rt : AomdvRtEntry) : Prop where
  up : rt.rt_flags = .RTF_UP ↔ rt.rt_path_list ≠ []
  num : rt.rt_num_paths_ = rt.rt_path_list.length
  num_le : rt.rt_num_paths_ ≤ max
  nexthops : (rt.rt_path_list.map (·.nexthop)).Nodup
  lasthops : (rt.rt_path_list.map (·.lasthop)).Nodup
  even : rt.rt_flags = .RTF_UP → rt.rt_seqno % 2 = 0 ∧ 2 ≤ rt.rt_seqno ∧ rt.rt_seqno < 2 ^ 32
  odd : rt.rt_flags ≠ .RTF_UP → rt.rt_flags = .RTF_DOWN ∧ (rt.rt_seqno % 2 = 1 ∨ rt.rt_seqno = 0)
  highest : rt.rt_highest_seqno_heard % 2 = 1 ∨ rt.rt_highest_seqno_heard = 0
  ne_self : rt.rt_flags = .RTF_UP → d ≠ n
  hops : ∀ p ∈ rt.rt_path_list,
    rt.rt_advertised_hops = aomdvInfinity ∨ p.hopcount ≤ rt.rt_advertised_hops
  told : ∀ p ∈ rt.rt_path_list, ∃ h < 256, p.hopcount = h + 1 ∧ Told p.nexthop d rt.rt_seqno h

/-- The advertised hop count stays while the sequence number does, and is that of a path when it is
fixed. -/
structure Evolves (a b : AomdvRtEntry) : Prop where
  seqno : a.rt_seqno < b.rt_seqno ∨ a.rt_seqno = b.rt_seqno ∧
    (a.rt_flags = .RTF_UP → a.rt_advertised_hops ≠ aomdvInfinity →
      b.rt_flags = .RTF_UP ∧ b.rt_advertised_hops = a.rt_advertised_hops)
  fixed : b.rt_flags = .RTF_UP → b.rt_advertised_hops ≠ aomdvInfinity →
    a.rt_flags = .RTF_UP ∧ b.rt_advertised_hops = a.rt_advertised_hops ∨
      ∃ p ∈ b.rt_path_list, b.rt_advertised_hops = p.hopcount

/-- The same, and no hop count is fixed. -/
structure Quiet (a b : AomdvRtEntry) : Prop where
  seqno : a.rt_seqno < b.rt_seqno ∨ a.rt_seqno = b.rt_seqno ∧
    (a.rt_flags = .RTF_UP → a.rt_advertised_hops ≠ aomdvInfinity →
      b.rt_flags = .RTF_UP ∧ b.rt_advertised_hops = a.rt_advertised_hops)
  fixed : b.rt_flags = .RTF_UP → b.rt_advertised_hops ≠ aomdvInfinity →
    a.rt_flags = .RTF_UP ∧ b.rt_advertised_hops = a.rt_advertised_hops

/-- Only times of expiry and soft state differ. -/
structure Refreshed (a b : AomdvRtEntry) : Prop where
  flags : b.rt_flags = a.rt_flags
  seqno : b.rt_seqno = a.rt_seqno
  hops : b.rt_advertised_hops = a.rt_advertised_hops
  paths : b.rt_path_list.map (·.key) = a.rt_path_list.map (·.key)
  highest : b.rt_highest_seqno_heard = a.rt_highest_seqno_heard
  num : b.rt_num_paths_ = a.rt_num_paths_

variable {Told Told' : ℤ → ℤ → ℕ → ℕ → Prop} {max n d : ℤ} {a b c rt : AomdvRtEntry}

theorem Quiet.evolves (h : Quiet a b) : Evolves a b := ⟨h.seqno, fun hu hf => .inl (h.fixed hu hf)⟩

theorem Quiet.refl (a : AomdvRtEntry) : Quiet a a :=
  ⟨.inr ⟨rfl, fun hu _ => ⟨hu, rfl⟩⟩, fun hu _ => ⟨hu, rfl⟩⟩

theorem seqno_trans
    (h1 : a.rt_seqno < b.rt_seqno ∨ a.rt_seqno = b.rt_seqno ∧
      (a.rt_flags = .RTF_UP → a.rt_advertised_hops ≠ aomdvInfinity →
        b.rt_flags = .RTF_UP ∧ b.rt_advertised_hops = a.rt_advertised_hops))
    (h2 : b.rt_seqno < c.rt_seqno ∨ b.rt_seqno = c.rt_seqno ∧
      (b.rt_flags = .RTF_UP → b.rt_advertised_hops ≠ aomdvInfinity →
        c.rt_flags = .RTF_UP ∧ c.rt_advertised_hops = b.rt_advertised_hops)) :
    a.rt_seqno < c.rt_seqno ∨ a.rt_seqno = c.rt_seqno ∧
      (a.rt_flags = .RTF_UP → a.rt_advertised_hops ≠ aomdvInfinity →
        c.rt_flags = .RTF_UP ∧ c.rt_advertised_hops = a.rt_advertised_hops) := by
  rcases h1 with h1 | ⟨he1, h1⟩
  · left
    omega
  rcases h2 with h2 | ⟨he2, h2⟩
  · left
    omega
  refine .inr ⟨he1.trans he2, fun hu hf => ?_⟩
  obtain ⟨hub, hb⟩ := h1 hu hf
  obtain ⟨huc, hc⟩ := h2 hub (by rw [hb]; exact hf)
  exact ⟨huc, hc.trans hb⟩

theorem Quiet.trans (h1 : Quiet a b) (h2 : Quiet b c) : Quiet a c := by
  refine ⟨seqno_trans h1.seqno h2.seqno, fun hu hf => ?_⟩
  obtain ⟨hub, hb⟩ := h2.fixed hu hf
  obtain ⟨hua, ha⟩ := h1.fixed hub (by rw [← hb]; exact hf)
  exact ⟨hua, hb.trans ha⟩

theorem Quiet.trans_evolves (h1 : Quiet a b) (h2 : Evolves b c) : Evolves a c := by
  refine ⟨seqno_trans h1.seqno h2.seqno, fun hu hf => ?_⟩
  rcases h2.fixed hu hf with ⟨hub, hb⟩ | hp
  · obtain ⟨hua, ha⟩ := h1.fixed hub (by rw [← hb]; exact hf)
    exact .inl ⟨hua, hb.trans ha⟩
  · exact .inr hp

theorem Refreshed.refl (a : AomdvRtEntry) : Refreshed a a := ⟨rfl, rfl, rfl, rfl, rfl, rfl⟩

theorem Refreshed.trans (h1 : Refreshed a b) (h2 : Refreshed b c) : Refreshed a c :=
  ⟨h2.flags.trans h1.flags, h2.seqno.trans h1.seqno, h2.hops.trans h1.hops,
    h2.paths.trans h1.paths, h2.highest.trans h1.highest, h2.num.trans h1.num⟩

theorem Refreshed.quiet (h : Refreshed a b) : Quiet a b := by
  refine ⟨.inr ⟨h.seqno.symm, fun hu _ => ?_⟩, fun hu _ => ?_⟩
  · exact ⟨h.flags.trans hu, h.hops⟩
  · exact ⟨h.flags.symm.trans hu, h.hops⟩

/-- A path of the one is, up to its time of expiry, a path of the other. -/
theorem Refreshed.mem (h : Refreshed a b) {p : AomdvPath} (hp : p ∈ b.rt_path_list) :
    ∃ q ∈ a.rt_path_list, q.key = p.key := by
  have hk : p.key ∈ b.rt_path_list.map (·.key) := List.mem_map_of_mem hp
  rw [h.paths] at hk
  exact List.mem_map.mp hk

theorem Refreshed.symm (h : Refreshed a b) : Refreshed b a :=
  ⟨h.flags.symm, h.seqno.symm, h.hops.symm, h.paths.symm, h.highest.symm, h.num.symm⟩

theorem Evolves.refreshed (h1 : Evolves a b) (h2 : Refreshed b c) : Evolves a c := by
  refine ⟨seqno_trans h1.seqno h2.quiet.seqno, fun hu hf => ?_⟩
  rw [h2.hops] at hf ⊢
  rcases h1.fixed (h2.flags.symm.trans hu) hf with hb | ⟨p, hp, he⟩
  · exact .inl hb
  · obtain ⟨q, hq, hk⟩ := h2.symm.mem hp
    exact .inr ⟨q, hq, he.trans (congrArg (·.2.1) hk).symm⟩

theorem Ok.mono (h : rt.Ok Told max n d) (hT : ∀ j d s h, Told j d s h → Told' j d s h) :
    rt.Ok Told' max n d :=
  { h with told := fun p hp => (h.told p hp).imp fun _ hk => ⟨hk.1, hk.2.1, hT _ _ _ _ hk.2.2⟩ }

theorem Ok.refresh (h : a.Ok Told max n d) (hab : Refreshed a b) : b.Ok Told max n d := by
  have hlen : b.rt_path_list.length = a.rt_path_list.length := by
    have := congrArg List.length hab.paths
    simpa using this
  have hnil : b.rt_path_list = [] ↔ a.rt_path_list = [] := by
    rw [← List.length_eq_zero_iff, hlen, List.length_eq_zero_iff]
  have hmap : ∀ {α : Type} (f : ℤ × ℕ × ℤ → α), b.rt_path_list.map (fun p => f p.key) =
      a.rt_path_list.map (fun p => f p.key) := fun f => by
    have hkeys := congrArg (List.map f) hab.paths
    rw [List.map_map, List.map_map] at hkeys
    exact hkeys
  refine ⟨?_, ?_, ?_, ?_, ?_, ?_, ?_, ?_, ?_, fun p hp => ?_, fun p hp => ?_⟩
  · rw [hab.flags, h.up]
    exact not_congr hnil.symm
  · rw [hab.num, hlen, h.num]
  · rw [hab.num]
    exact h.num_le
  · rw [show b.rt_path_list.map (·.nexthop) = a.rt_path_list.map (·.nexthop) from hmap (·.1)]
    exact h.nexthops
  · rw [show b.rt_path_list.map (·.lasthop) = a.rt_path_list.map (·.lasthop) from hmap (·.2.2)]
    exact h.lasthops
  · rw [hab.flags, hab.seqno]
    exact h.even
  · rw [hab.flags, hab.seqno]
    exact h.odd
  · rw [hab.highest]
    exact h.highest
  · rw [hab.flags]
    exact h.ne_self
  · obtain ⟨q, hq, hk⟩ := hab.mem hp
    rw [hab.hops, show p.hopcount = q.hopcount from (congrArg (·.2.1) hk).symm]
    exact h.hops q hq
  · obtain ⟨q, hq, hk⟩ := hab.mem hp
    rw [hab.seqno, show p.hopcount = q.hopcount from (congrArg (·.2.1) hk).symm,
      show p.nexthop = q.nexthop from (congrArg (·.1) hk).symm]
    exact h.told q hq

theorem ok_new (hmax : 0 ≤ max) : new.Ok Told max n d where
  up := iff_of_false (by decide) (fun h => h rfl)
  num := rfl
  num_le := hmax
  nexthops := List.nodup_nil
  lasthops := List.nodup_nil
  even h := absurd h (by decide)
  odd _ := ⟨rfl, .inr rfl⟩
  highest := .inr rfl
  ne_self h := absurd h (by decide)
  hops _ hp := absurd hp List.not_mem_nil
  told _ hp := absurd hp List.not_mem_nil

theorem map_adjustExpire (P : AomdvPath → Bool) (f : ℚ → ℚ) (l : List AomdvPath) :
    (adjustExpire P f l).map (·.key) = l.map (·.key) := by
  induction l with
  | nil => rfl
  | cons p l ih =>
    rw [adjustExpire]
    split_ifs
    · rfl
    · rw [List.map_cons, List.map_cons, ih]

theorem refreshed_adjust (rt : AomdvRtEntry) (P : AomdvPath → Bool) (f : ℚ → ℚ) :
    Refreshed rt { rt with rt_path_list := adjustExpire P f rt.rt_path_list } :=
  ⟨rfl, rfl, rfl, map_adjustExpire P f _, rfl, rfl⟩

/-- A newer sequence number. -/
theorem Ok.renew (h : rt.Ok Told max n d) (hmax : 1 ≤ max) {seqno hop : ℕ} {nexthop : ℤ}
    (lasthop : ℤ) (e : ℚ) (hseqno : rt.rt_seqno < seqno) (heven : seqno % 2 = 0) (hlt : seqno < 2 ^ 32)
    (hd : d ≠ n) (hhop : hop < 256) (htold : Told nexthop d seqno hop) :
    (rt.renew seqno nexthop (hop + 1) e lasthop).Ok Told max n d ∧
      Quiet rt (rt.renew seqno nexthop (hop + 1) e lasthop) := by
  refine ⟨⟨iff_of_true rfl (List.cons_ne_nil _ _), rfl, ?_, List.nodup_singleton _,
    List.nodup_singleton _, fun _ => ⟨heven, ?_, hlt⟩, fun hf => absurd rfl hf, h.highest,
    fun _ => hd, fun p _ => .inl rfl, fun p hp => ?_⟩, .inl hseqno, fun _ hf => absurd rfl hf⟩
  · change (0 : ℤ) + 1 ≤ max
    omega
  · change 2 ≤ seqno
    omega
  · obtain rfl := List.mem_singleton.mp hp
    exact ⟨hop, hhop, rfl, htold⟩

/-- One more path. -/
theorem Ok.extend (h : rt.Ok Told max n d) {hop : ℕ} {nexthop lasthop : ℤ} {e : ℚ}
    (hup : rt.rt_flags = .RTF_UP) (hadv : rt.rt_advertised_hops > hop)
    (hnew : rt.new_disjoint_path nexthop lasthop) (hnum : rt.rt_num_paths_ < max)
    (hhop : hop < 256) (htold : Told nexthop d rt.rt_seqno hop) :
    (rt.extend nexthop (hop + 1) e lasthop).Ok Told max n d ∧
      Quiet rt (rt.extend nexthop (hop + 1) e lasthop) := by
  refine ⟨⟨iff_of_true hup (List.append_ne_nil_of_right_ne_nil _ (List.cons_ne_nil _ _)), ?_, ?_,
    ?_, ?_, h.even, h.odd, h.highest, h.ne_self, fun p hp => ?_, fun p hp => ?_⟩,
    .inr ⟨rfl, fun hu _ => ⟨hu, rfl⟩⟩, fun hu _ => ⟨hu, rfl⟩⟩
  · change rt.rt_num_paths_ + 1 = ((rt.rt_path_list ++ [_]).length : ℤ)
    rw [List.length_append, List.length_singleton, h.num]
    rfl
  · change rt.rt_num_paths_ + 1 ≤ max
    omega
  · change ((rt.rt_path_list ++ [_]).map _).Nodup
    rw [List.map_append, List.nodup_append]
    refine ⟨h.nexthops, List.nodup_singleton _, fun x hx y hy hxy => ?_⟩
    obtain ⟨p, hp, rfl⟩ := List.mem_map.mp hx
    obtain rfl := List.mem_singleton.mp hy
    exact hnew p hp (.inl hxy)
  · change ((rt.rt_path_list ++ [_]).map _).Nodup
    rw [List.map_append, List.nodup_append]
    refine ⟨h.lasthops, List.nodup_singleton _, fun x hx y hy hxy => ?_⟩
    obtain ⟨p, hp, rfl⟩ := List.mem_map.mp hx
    obtain rfl := List.mem_singleton.mp hy
    exact hnew p hp (.inr hxy)
  · rcases List.mem_append.mp hp with hp | hp
    · exact h.hops p hp
    · obtain rfl := List.mem_singleton.mp hp
      exact .inr hadv
  · rcases List.mem_append.mp hp with hp | hp
    · exact h.told p hp
    · obtain rfl := List.mem_singleton.mp hp
      exact ⟨hop, hhop, rfl, htold⟩

/-- Some paths are left. -/
theorem Ok.sublist (h : a.Ok Told max n d) (hflags : b.rt_flags = a.rt_flags)
    (hseqno : b.rt_seqno = a.rt_seqno) (hadv : b.rt_advertised_hops = a.rt_advertised_hops)
    (hsub : b.rt_path_list.Sublist a.rt_path_list) (hnum : b.rt_num_paths_ = b.rt_path_list.length)
    (hhigh : b.rt_highest_seqno_heard % 2 = 1 ∨ b.rt_highest_seqno_heard = 0)
    (hup : a.rt_flags = .RTF_UP) (hne : b.rt_path_list ≠ []) :
    b.Ok Told max n d ∧ Quiet a b := by
  refine ⟨⟨iff_of_true (hflags.trans hup) hne, hnum, ?_, h.nexthops.sublist (hsub.map _),
    h.lasthops.sublist (hsub.map _), ?_, ?_, hhigh, ?_, fun p hp => ?_, fun p hp => ?_⟩,
    .inr ⟨hseqno.symm, fun hu _ => ⟨hflags.trans hu, hadv⟩⟩,
    fun hu _ => ⟨hflags.symm.trans hu, hadv⟩⟩
  · have hlen := hsub.length_le
    have hle := h.num_le
    rw [h.num] at hle
    rw [hnum]
    omega
  · rw [hflags, hseqno]
    exact h.even
  · rw [hflags, hseqno]
    exact h.odd
  · rw [hflags]
    exact h.ne_self
  · rw [hadv]
    exact h.hops p (hsub.subset hp)
  · rw [hseqno]
    exact h.told p (hsub.subset hp)

/-- The last path is lost. -/
theorem ok_down (hflags : b.rt_flags = .RTF_DOWN) (hpaths : b.rt_path_list = [])
    (hnum : b.rt_num_paths_ = 0) (hmax : 0 ≤ max) (hodd : b.rt_seqno % 2 = 1)
    (hhigh : b.rt_highest_seqno_heard % 2 = 1 ∨ b.rt_highest_seqno_heard = 0)
    (hlt : a.rt_seqno < b.rt_seqno) : b.Ok Told max n d ∧ Quiet a b := by
  have hdown : b.rt_flags ≠ .RTF_UP := by
    rw [hflags]
    decide
  refine ⟨⟨iff_of_false hdown fun hne => hne hpaths, ?_, ?_, ?_, ?_, fun hu => absurd hu hdown,
    fun _ => ⟨hflags, .inl hodd⟩, hhigh, fun hu => absurd hu hdown, ?_, ?_⟩, .inl hlt,
    fun hu => absurd hu hdown⟩
  · rw [hnum, hpaths]
    rfl
  · rw [hnum]
    exact hmax
  · rw [hpaths]
    exact List.nodup_nil
  · rw [hpaths]
    exact List.nodup_nil
  · rw [hpaths]
    exact fun p hp => absurd hp List.not_mem_nil
  · rw [hpaths]
    exact fun p hp => absurd hp List.not_mem_nil

theorem maxHopcount_spec (l : List AomdvPath) (m : ℕ) :
    (l.foldl (fun m p => if p.hopcount > m then p.hopcount else m) m = m ∨
      ∃ p ∈ l, l.foldl (fun m p => if p.hopcount > m then p.hopcount else m) m = p.hopcount) ∧
    m ≤ l.foldl (fun m p => if p.hopcount > m then p.hopcount else m) m ∧
    ∀ p ∈ l, p.hopcount ≤ l.foldl (fun m p => if p.hopcount > m then p.hopcount else m) m := by
  induction l generalizing m with
  | nil => exact ⟨.inl rfl, le_rfl, fun p hp => absurd hp List.not_mem_nil⟩
  | cons q l ih =>
    obtain ⟨h1, h2, h3⟩ := ih (if q.hopcount > m then q.hopcount else m)
    rw [List.foldl_cons]
    have hle : m ≤ (if q.hopcount > m then q.hopcount else m) ∧
        q.hopcount ≤ (if q.hopcount > m then q.hopcount else m) := by
      split_ifs <;> omega
    refine ⟨?_, hle.1.trans h2, fun p hp => ?_⟩
    · rcases h1 with h1 | ⟨p, hp, h1⟩
      · rw [h1]
        split_ifs
        · exact .inr ⟨q, List.mem_cons_self, rfl⟩
        · exact .inl rfl
      · exact .inr ⟨p, List.mem_cons_of_mem q hp, h1⟩
    · rcases List.mem_cons.mp hp with rfl | hp
      · exact hle.2.trans h2
      · exact h3 p hp

/-- The hop count is fixed when it is sent. -/
theorem Ok.advertise (h : rt.Ok Told max n d) (hup : rt.rt_flags = .RTF_UP) :
    rt.advertise.Ok Told max n d ∧ Evolves rt rt.advertise ∧
      rt.advertise.rt_advertised_hops ≠ aomdvInfinity ∧ rt.advertise.rt_flags = .RTF_UP ∧
      rt.advertise.rt_seqno = rt.rt_seqno ∧ rt.advertise.rt_path_list = rt.rt_path_list := by
  rw [AomdvRtEntry.advertise]
  by_cases hinf : rt.rt_advertised_hops = aomdvInfinity
  · rw [if_pos hinf]
    obtain ⟨h1, -, h3⟩ := maxHopcount_spec rt.rt_path_list 0
    obtain ⟨p0, hp0⟩ := List.exists_mem_of_ne_nil _ (h.up.mp hup)
    obtain ⟨k0, -, hk0, -⟩ := h.told p0 hp0
    have hpos := h3 p0 hp0
    obtain ⟨m, hm⟩ : ∃ m, rt.rt_path_list.foldl
        (fun m p => if p.hopcount > m then p.hopcount else m) 0 = m := ⟨_, rfl⟩
    rw [hm] at h1 h3 hpos
    have hmax : rt.path_get_max_hopcount = m := by
      rw [path_get_max_hopcount, hm, if_neg (by omega)]
    obtain ⟨p, hp, hpm⟩ := h1.resolve_left (by omega)
    obtain ⟨k, hk, hpk, -⟩ := h.told p hp
    have hne : rt.path_get_max_hopcount ≠ aomdvInfinity := by
      rw [hmax, aomdvInfinity]
      omega
    refine ⟨⟨h.up, h.num, h.num_le, h.nexthops, h.lasthops, h.even, h.odd, h.highest, h.ne_self,
      fun q hq => .inr ?_, h.told⟩, ⟨.inr ⟨rfl, fun _ hf => absurd hinf hf⟩, fun _ _ => .inr ?_⟩,
      hne, hup, rfl, rfl⟩
    · change q.hopcount ≤ rt.path_get_max_hopcount
      rw [hmax]
      exact h3 q hq
    · exact ⟨p, hp, hmax.trans hpm⟩
  · rw [if_neg hinf]
    exact ⟨h, (Quiet.refl rt).evolves, hinf, hup, rfl, rfl⟩

end AomdvRtEntry

end Ns2
