import Ns2.Queue.SemanticPacketQueue

/-! The packets that the links of a queue run through, and what its operations do to them. -/

namespace Ns2

namespace PacketQueue

variable {π : Type*}

def links (q : PacketQueue π) : DList π := ⟨q.next_, fun _ => none, q.head_, q.tail_⟩

/-- The links run through `l`, once and to the tail, and no packet of it was given back. -/
structure Lists (q : PacketQueue π) (l : List π) : Prop where
  nodup : l.Nodup
  fwd : q.links.Fwd l
  tail : q.tail_ = l.getLast?
  live : ∀ a ∈ l, a ∉ q.freed

/-- The packets that are met from `p` on. -/
def packets (q : PacketQueue π) : ℕ → Option π → List π
  | 0, _ => []
  | _ + 1, none => []
  | fuel + 1, some p => p :: packets q fuel (q.next_ p)

theorem Lists.packets_of {q : PacketQueue π} {L M : List π} {fuel : ℕ} (h : q.Lists (L ++ M))
    (hfuel : M.length ≤ fuel) : q.packets fuel M.head? = M := by
  induction M generalizing L fuel with
  | nil => cases fuel <;> rfl
  | cons a M ih =>
    obtain ⟨fuel, rfl⟩ : ∃ k, fuel = k + 1 := ⟨fuel - 1, by simp at hfuel; omega⟩
    have hnext : q.next_ a = M.head? := h.fwd.next L a M rfl
    have htail : q.packets fuel M.head? = M :=
      @ih (L ++ [a]) fuel (by simpa using h) (by simpa using hfuel)
    show a :: q.packets fuel (q.next_ a) = a :: M
    rw [hnext, htail]

theorem Lists.packets {q : PacketQueue π} {l : List π} {fuel : ℕ} (h : q.Lists l)
    (hfuel : l.length ≤ fuel) : q.packets fuel q.head_ = l := by
  have hhead : q.head_ = l.head? := h.fwd.head
  rw [hhead]
  exact @Lists.packets_of _ q [] l fuel h hfuel

theorem Lists.unique {q : PacketQueue π} {l l' : List π} (h : q.Lists l) (h' : q.Lists l') :
    l = l' := by
  have hl : q.packets (max l.length l'.length) q.head_ = l := h.packets (Nat.le_max_left _ _)
  exact hl.symm.trans (h'.packets (Nat.le_max_right _ _))

variable (hdr : π → PacketHeader)

/-- The list with its length and bytes. -/
structure Stores (q : PacketQueue π) (l : List π) : Prop extends Lists q l where
  len : q.len_ = l.length
  bytes : q.bytes_ = (l.map fun p => (hdr p).size).sum

variable {hdr}

theorem Stores.head {q : PacketQueue π} {l : List π} (h : Stores hdr q l) : q.head_ = l.head? :=
  h.fwd.head

/-- What is left when a packet is taken out. -/
theorem Stores.without {q q' : PacketQueue π} {L R : List π} {a : π}
    (h : Stores hdr q (L ++ a :: R))
    (hfwd : q'.links.Fwd (L ++ R)) (htail : q'.tail_ = (L ++ R).getLast?) (hf : q'.freed = q.freed)
    (hlen : q'.len_ = q.len_ - 1) (hbytes : q'.bytes_ = q.bytes_ - (hdr a).size) :
    Stores hdr q' (L ++ R) where
  nodup := h.nodup.sublist (by simp)
  fwd := hfwd
  tail := htail
  live := by
    intro x hx
    rw [hf]
    exact h.live x (by simp at hx ⊢; tauto)
  len := by
    rw [hlen, h.len]
    simp only [List.length_append, List.length_cons]
    omega
  bytes := by
    rw [hbytes, h.bytes]
    simp only [List.map_append, List.map_cons, List.sum_append, List.sum_cons]
    omega

theorem last_iff {L R : List π} {a : π} (hnd : (L ++ a :: R).Nodup) :
    (L ++ a :: R).getLast? = some a ↔ R = [] := by
  constructor
  · intro hlast
    by_contra hne
    obtain ⟨b, hb⟩ := Option.ne_none_iff_exists'.mp (mt List.getLast?_eq_none_iff.mp hne)
    have hba : b = a := by
      have hlast' : R.getLast? = some a := by
        rw [List.getLast?_append, List.getLast?_cons, hb] at hlast
        rw [hb]
        simpa using hlast
      rw [hb] at hlast'
      exact Option.some.inj hlast'
    have hmem : a ∈ R := hba ▸ List.mem_of_getLast? hb
    exact (List.nodup_cons.mp (List.nodup_append.mp hnd).2.1).1 hmem
  · rintro rfl
    simp

variable [DecidableEq π]

theorem Stores.follow {q : PacketQueue π} {L R : List π} {a : π} (h : Stores hdr q (L ++ a :: R)) :
    q.follow a = some R.head? := by
  rw [PacketQueue.follow, if_neg (h.live a (by simp))]
  exact congrArg some (h.fwd.next L a R rfl)

theorem enque_spec {q : PacketQueue π} {l : List π} {p : π} (h : Stores hdr q l) (hp : p ∉ l)
    (hf : p ∉ q.freed) : ∃ q', enque hdr q p = some (q', q.tail_) ∧ Stores hdr q' (l ++ [p]) ∧
      q'.freed = q.freed := by
  have hnd : (l ++ [p]).Nodup := by
    rw [List.nodup_append]
    exact ⟨h.nodup, by simp, fun a ha b hb => by rintro rfl; simp at hb; exact hp (hb ▸ ha)⟩
  have hlive : ∀ a ∈ l ++ [p], a ∉ q.freed := by
    intro a ha
    rcases List.mem_append.mp ha with ha | ha
    · exact h.live a ha
    · obtain rfl := List.mem_singleton.mp ha
      exact hf
  have hins := @DList.Fwd.insert _ _ q.links ⟨Function.update q.next_ p none, fun _ => none,
    q.head_, q.tail_⟩ l [] p (by simpa using h.fwd) (by simpa using hp) hnd rfl rfl
  have hlen : q.len_ + 1 = (l ++ [p]).length := by simp [h.len]
  have hbytes : q.bytes_ + (hdr p).size = ((l ++ [p]).map fun p => (hdr p).size).sum := by
    simp [h.bytes]
  have htail : some p = (l ++ [p]).getLast? := by simp
  rw [enque]
  cases ht : q.tail_ with
  | none =>
    have hl : l.getLast? = none := h.tail.symm.trans ht
    rw [hl] at hins
    simp only [Option.bind_some, setNext, if_neg hf, Option.map_some]
    exact ⟨_, rfl, ⟨⟨hnd, hins.congr rfl fun _ _ => rfl, htail, hlive⟩, hlen, hbytes⟩, rfl⟩
  | some t =>
    have hl : l.getLast? = some t := h.tail.symm.trans ht
    have hmem : t ∈ l := List.mem_of_getLast? hl
    have hne : t ≠ p := by
      rintro rfl
      exact hp hmem
    rw [hl] at hins
    simp only [setNext, if_neg (h.live t hmem), Option.map_some, Option.bind_some, if_neg hf]
    refine ⟨_, rfl, ⟨⟨hnd, hins.congr rfl fun a _ => ?_, htail, hlive⟩, hlen, hbytes⟩, rfl⟩
    show Function.update (Function.update q.next_ t (some p)) p none a =
      Function.update (Function.update q.next_ p none) t (some p) a
    rw [Function.update_comm hne]

theorem Stores.splice {q : PacketQueue π} {L R : List π} {a : π} (h : Stores hdr q (L ++ a :: R)) :
    (q.links.setNext L.getLast? R.head?).Fwd (L ++ R) :=
  h.fwd.splice (h.nodup.sublist (by simp)) fun pre x post he =>
    h.fwd.next (L ++ a :: pre) x post (by simp [he])

theorem deque_nil {q : PacketQueue π} (h : Stores hdr q []) : deque hdr q = some (q, none) := by
  rw [deque, h.head]
  rfl

theorem deque_cons {q : PacketQueue π} {a : π} {R : List π} (h : Stores hdr q (a :: R)) :
    ∃ q', deque hdr q = some (q', some a) ∧ Stores hdr q' R ∧ q'.freed = q.freed := by
  have hfollow : q.follow a = some R.head? := @Stores.follow _ _ _ q [] R a h
  have hs := @Stores.splice _ _ _ q [] R a h
  have hlast : (a :: R).getLast? = some a ↔ R = [] := @last_iff _ [] R a h.nodup
  have hhead : q.head_ = some a := h.head
  simp only [deque, hhead, hfollow, Option.map_some, h.tail, hlast]
  refine ⟨_, rfl, ?_, by split_ifs <;> rfl⟩
  by_cases hR : R = []
  · subst hR
    simp only [if_true]
    exact @Stores.without _ _ q _ [] [] a h (hs.congr rfl fun _ _ => rfl) rfl rfl rfl rfl
  · simp only [if_neg hR]
    obtain ⟨b, hb⟩ := Option.ne_none_iff_exists'.mp (mt List.getLast?_eq_none_iff.mp hR)
    have htail : (a :: R).getLast? = R.getLast? := by simp [List.getLast?_cons, hb]
    exact @Stores.without _ _ q _ [] R a h (hs.congr rfl fun _ _ => rfl) htail rfl rfl rfl

theorem unlink_spec {q : PacketQueue π} {L R : List π} {a b : π} (h : Stores hdr q (L ++ a :: R))
    (hb : L.getLast? = some b) :
    ∃ q', unlink hdr q b a = some q' ∧ Stores hdr q' (L ++ R) ∧ q'.freed = q.freed := by
  have hs := h.splice
  have hmem : b ∈ L := List.mem_of_getLast? hb
  rw [hb] at hs
  have hlast := last_iff h.nodup
  simp only [unlink, h.follow, Option.bind_some, setNext, if_neg (h.live b (by simp [hmem])),
    Option.map_some, h.tail, hlast]
  refine ⟨_, rfl, h.without (hs.congr rfl fun _ _ => rfl) ?_ rfl rfl rfl, rfl⟩
  by_cases hR : R = []
  · simp [hR, hb]
  · obtain ⟨c, hc⟩ := Option.ne_none_iff_exists'.mp (mt List.getLast?_eq_none_iff.mp hR)
    simp [hR, List.getLast?_append, List.getLast?_cons, hc]

theorem removeAfter_spec {q : PacketQueue π} {L R : List π} {a : π} {pp : Option π}
    (h : Stores hdr q (L ++ a :: R)) (hpp : L ≠ [] → pp = L.getLast?) :
    ∃ q', removeAfter hdr q (some a) pp = some q' ∧ Stores hdr q' (L ++ R) ∧
      q'.freed = q.freed := by
  cases L with
  | nil =>
    obtain ⟨q', h1, h2, h3⟩ := deque_cons h
    refine ⟨q', ?_, h2, h3⟩
    simp only [removeAfter, h.head, List.nil_append, List.head?_cons, if_true, h1, Option.map_some]
  | cons c L =>
    obtain ⟨b, hb⟩ : ∃ b, (c :: L).getLast? = some b := ⟨_, List.getLast?_eq_some_getLast (by simp)⟩
    obtain ⟨q', h1, h2, h3⟩ := unlink_spec h hb
    have hne : c ≠ a := by
      rintro rfl
      exact (List.nodup_cons.mp h.nodup).1 (by simp)
    refine ⟨q', ?_, h2, h3⟩
    simp only [removeAfter, h.head, List.cons_append, List.head?_cons, Option.some.injEq,
      if_neg hne, hpp (by simp), hb, Option.bind_some, h1]

theorem setNext_len {q q' : PacketQueue π} {p : π} {x : Option π} (h : q.setNext p x = some q') :
    q'.len_ = q.len_ := by
  rw [setNext] at h
  split_ifs at h
  obtain rfl := Option.some.inj h
  rfl

theorem removeAfter_len {q q' : PacketQueue π} {p : π} {pp : Option π}
    (h : removeAfter hdr q (some p) pp = some q') : q'.len_ = q.len_ - 1 := by
  simp only [removeAfter] at h
  split_ifs at h with hp
  · obtain ⟨⟨r, o⟩, hr, rfl⟩ := Option.map_eq_some_iff.mp h
    simp only [deque, hp, Option.map_eq_some_iff] at hr
    obtain ⟨n, -, hn⟩ := hr
    rw [← congrArg Prod.fst hn]
    dsimp only
    split_ifs <;> rfl
  · obtain ⟨b, -, hb⟩ := Option.bind_eq_some_iff.mp h
    obtain ⟨n, -, hn⟩ := Option.bind_eq_some_iff.mp hb
    obtain ⟨r, hr, rfl⟩ := Option.map_eq_some_iff.mp hn
    exact congrArg (· - 1) (setNext_len hr)

theorem findPrev_spec {q : PacketQueue π} {P M R : List π} {a : π} {fuel : ℕ}
    (h : Stores hdr q (P ++ M ++ a :: R)) (hfuel : M.length < fuel) :
    findPrev q a fuel P.getLast? (M ++ a :: R).head? = some (P ++ M).getLast? := by
  induction M generalizing P fuel with
  | nil =>
    obtain ⟨fuel, rfl⟩ : ∃ k, fuel = k + 1 := ⟨fuel - 1, by simp at hfuel; omega⟩
    simp [findPrev]
  | cons b M ih =>
    obtain ⟨fuel, rfl⟩ : ∃ k, fuel = k + 1 := ⟨fuel - 1, by simp at hfuel; omega⟩
    have hne : b ≠ a := by
      rintro rfl
      have hnd := h.nodup
      rw [List.append_assoc] at hnd
      exact (List.nodup_cons.mp (List.nodup_append.mp hnd).2.1).1 (by simp)
    have hfollow : q.follow b = some (M ++ a :: R).head? :=
      @Stores.follow _ hdr _ q P (M ++ a :: R) b (by simpa using h)
    have hrest := @ih (P ++ [b]) fuel (by simpa using h) (by simpa using hfuel)
    rw [List.getLast?_concat] at hrest
    simp only [List.cons_append, List.head?_cons, findPrev, if_neg hne, hfollow, Option.bind_some]
    simpa using hrest

end PacketQueue

end Ns2
