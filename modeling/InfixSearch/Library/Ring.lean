import Mathlib

/-!
# Rings of links

Entries are linked in a ring if each has a link `n` to the next and a link `p` to the one before
it, and the last and the first are linked as well (`Ring`). An entry is taken out by linking its
two neighbours (`Ring.remove`), and a ring is put in before the first entry of another by
changing four links (`Ring.splice`).
-/

namespace InfixSearch.Library

variable {α : Type*}

/-- There are links from `x` to `y` and back. -/
def Links (n p : α → α) (x y : α) : Prop := n x = y ∧ p y = x

/-- The entries are linked in a ring. -/
structure Ring (n p : α → α) (l : List α) : Prop where
  /-- They are different. -/
  nodup : l.Nodup
  /-- Each is linked to the next. -/
  chain : l.IsChain (Links n p)
  /-- The last is linked to the first. -/
  closed : ∀ x ∈ l.getLast?, ∀ y ∈ l.head?, Links n p x y

namespace Ring

variable {n p : α → α} {l l' : List α} {a b x y : α}

theorem nil (n p : α → α) : Ring n p [] := ⟨.nil, .nil, fun _ hx => nomatch hx⟩

/-- A ring has no first entry. -/
theorem rotate (h : Ring n p (l ++ l')) : Ring n p (l' ++ l) := by
  rcases List.eq_nil_or_concat l with rfl | ⟨k, z, rfl⟩
  · rwa [List.append_nil]
  rcases List.eq_nil_or_concat l' with rfl | ⟨k', z', rfl⟩
  · rwa [List.append_nil] at h
  obtain ⟨hl, hl', hlink⟩ := List.isChain_append.mp h.chain
  have hclosed := h.closed
  refine ⟨(List.nodup_append_comm).mp h.nodup, List.isChain_append.mpr ⟨hl', hl, ?_⟩, ?_⟩
  · intro x hx y hy
    refine hclosed x ?_ y ?_
    · rw [List.getLast?_append_of_ne_nil _ (by simp)]
      exact hx
    · rw [List.head?_append_of_ne_nil _ (by simp)]
      exact hy
  · intro x hx y hy
    rw [List.getLast?_append_of_ne_nil _ (by simp)] at hx
    rw [List.head?_append_of_ne_nil _ (by simp)] at hy
    exact hlink x hx y hy

theorem next (h : Ring n p (l ++ x :: y :: l')) : n x = y ∧ p y = x := by
  obtain ⟨-, hchain, -⟩ := List.isChain_append.mp h.chain
  exact (List.isChain_cons_cons.mp hchain).1

theorem next_last (h : Ring n p (a :: l)) (hx : (a :: l).getLast? = some x) : n x = a ∧ p a = x := h.closed x hx a rfl

/-- The links of an entry lead to entries. -/
theorem mem (h : Ring n p l) (hx : x ∈ l) : n x ∈ l ∧ p x ∈ l := by
  obtain ⟨u, v, rfl⟩ := List.append_of_mem hx
  constructor
  · cases v with
    | nil =>
      cases u with
      | nil =>
        rw [(Ring.next_last (x := x) (a := x) (l := []) h rfl).1]
        exact List.mem_singleton.mpr rfl
      | cons a u =>
        rw [(Ring.next_last h (List.getLast?_concat (l := a :: u))).1]
        exact List.mem_cons_self
    | cons y v => exact h.next.1 ▸ by simp
  · rcases List.eq_nil_or_concat u with rfl | ⟨u, y, rfl⟩
    · obtain ⟨y, hy⟩ := Option.isSome_iff_exists.mp (List.getLast?_isSome.mpr (List.cons_ne_nil x v))
      rw [List.nil_append] at h ⊢
      rw [(h.next_last hy).2]
      exact List.mem_of_getLast? hy
    · rw [List.concat_eq_append, List.append_assoc] at h ⊢
      rw [(h.next (l := u)).2]
      simp

/-- Only the links of the entries matter. -/
theorem congr {n' p' : α → α} (h : Ring n p l) (he : ∀ x ∈ l, n' x = n x ∧ p' x = p x) : Ring n' p' l := by
  have hlinks : ∀ x ∈ l, ∀ y ∈ l, Links n p x y → Links n' p' x y :=
    fun x hx y hy hxy => ⟨(he x hx).1.trans hxy.1, (he y hy).2.trans hxy.2⟩
  refine ⟨h.nodup, List.IsChain.imp_of_mem_imp (fun x y hx hy => hlinks x hx y hy) h.chain, fun x hx y hy => ?_⟩
  exact hlinks x (List.mem_of_getLast? hx) y (List.mem_of_mem_head? hy) (h.closed x hx y hy)

/-- Numbers in a row, with links to the next and the previous one. -/
theorem range' {n p : ℕ → ℕ} {a k : ℕ} (hn : ∀ i, a ≤ i → i < a + k → n i = i + 1)
    (hp : ∀ i, a < i → i ≤ a + k → p i = i - 1) (hlast : n (a + k) = a) (hfirst : p a = a + k) :
    Ring n p (List.range' a (k + 1)) := by
  refine ⟨List.nodup_range', ?_, ?_⟩
  · refine List.IsChain.imp_of_mem_imp (fun x y hx hy hxy => ?_) (List.isChain_range' a (k + 1) 1)
    rw [List.mem_range'_1] at hx hy
    subst hxy
    exact ⟨hn x (by omega) (by omega), by rw [hp (x + 1) (by omega) (by omega), Nat.add_sub_cancel]⟩
  · intro x hx y hy
    have hx' : x = a + k := by
      rw [List.range'_1_concat, List.getLast?_concat] at hx
      exact (Option.some.inj hx).symm
    have hy' : y = a := by
      rw [List.range'_succ] at hy
      exact (Option.some.inj hy).symm
    subst hx' hy'
    exact ⟨hlast, hfirst⟩

variable [DecidableEq α]

/-- Links may be changed that no two neighbours use. -/
theorem isChain_congr {n' p' : α → α} (h : l.IsChain (Links n p)) (hl : l.Nodup)
    (hn : ∀ x ∈ l, n' x ≠ n x → l.getLast? = some x) (hp : ∀ x ∈ l, p' x ≠ p x → l.head? = some x) :
    l.IsChain (Links n' p') := by
  rw [List.isChain_iff_forall_rel_of_append_cons_cons] at h ⊢
  intro x y u v he
  obtain ⟨hx, hy⟩ := h he
  subst he
  constructor
  · by_contra hne
    have hlast := hn x (by simp) fun he => hne (he.trans hx)
    rw [List.getLast?_append_of_ne_nil _ (List.cons_ne_nil _ _), List.getLast?_cons_cons] at hlast
    exact (List.nodup_cons.mp (List.nodup_append.mp hl).2.1).1 (List.mem_of_getLast? hlast)
  · by_contra hne
    have hhead := hp y (by simp) fun he => hne (he.trans hy)
    rw [List.append_cons] at hhead hl
    rw [List.head?_append_of_ne_nil _ (by simp)] at hhead
    exact List.disjoint_of_nodup_append hl (List.mem_of_mem_head? hhead) List.mem_cons_self

/-- The neighbours of an entry are linked. -/
theorem remove (h : Ring n p (l ++ x :: l')) :
    Ring (Function.update n (p x) (n x)) (Function.update p (n x) (p x)) (l ++ l') := by
  suffices hfirst : ∀ r, Ring n p (x :: r) → Ring (Function.update n (p x) (n x)) (Function.update p (n x) (p x)) r from
    (hfirst _ h.rotate).rotate
  intro r h
  have hnodup := (List.nodup_cons.mp h.nodup).2
  cases r with
  | nil => exact nil _ _
  | cons a r =>
    obtain ⟨hx, hchain⟩ := List.isChain_cons_cons.mp h.chain
    obtain ⟨z, hz⟩ := Option.isSome_iff_exists.mp (List.getLast?_isSome.mpr (List.cons_ne_nil a r))
    have hzx := h.closed z (by rwa [List.getLast?_cons_cons]) x rfl
    rw [hx.1, hzx.2]
    refine ⟨hnodup, isChain_congr hchain hnodup ?_ ?_, ?_⟩
    · intro y _ hy
      by_cases hyz : y = z
      · exact hyz ▸ hz
      · exact absurd (Function.update_of_ne hyz _ _) hy
    · intro y _ hy
      by_cases hya : y = a
      · rw [hya]
        rfl
      · exact absurd (Function.update_of_ne hya _ _) hy
    · intro y hy b hb
      obtain rfl := Option.some.inj (hz.symm.trans hy)
      obtain rfl := Option.some.inj hb
      exact ⟨Function.update_self .., Function.update_self ..⟩

/-- A ring is put in before the first entry of another. -/
theorem splice (h : Ring n p (a :: l)) (h' : Ring n p (b :: l')) (hd : (a :: l).Disjoint (b :: l')) :
    Ring (Function.update (Function.update n (p b) a) (p a) b) (Function.update (Function.update p b (p a)) a (p b))
      (a :: l ++ b :: l') := by
  obtain ⟨z, hz⟩ := Option.isSome_iff_exists.mp (List.getLast?_isSome.mpr (List.cons_ne_nil a l))
  obtain ⟨z', hz'⟩ := Option.isSome_iff_exists.mp (List.getLast?_isSome.mpr (List.cons_ne_nil b l'))
  have hza := h.closed z hz a rfl
  have hzb := h'.closed z' hz' b rfl
  rw [hza.2, hzb.2]
  have hmem := List.mem_of_getLast? hz
  have hmem' := List.mem_of_getLast? hz'
  have hne : ∀ {x y}, x ∈ a :: l → y ∈ b :: l' → x ≠ y := fun hx hy he => hd hx (he ▸ hy)
  refine ⟨List.nodup_append'.mpr ⟨h.nodup, h'.nodup, hd⟩, List.isChain_append.mpr ⟨?_, ?_, ?_⟩, ?_⟩
  · refine isChain_congr h.chain h.nodup (fun x hx hx' => ?_) fun x hx hx' => ?_
    · by_cases hxz : x = z
      · exact hxz ▸ hz
      · rw [Function.update_of_ne hxz, Function.update_of_ne (hne hx hmem')] at hx'
        exact absurd rfl hx'
    · by_cases hxa : x = a
      · rw [hxa]
        rfl
      · rw [Function.update_of_ne hxa, Function.update_of_ne (hne hx List.mem_cons_self)] at hx'
        exact absurd rfl hx'
  · refine isChain_congr h'.chain h'.nodup (fun x hx hx' => ?_) fun x hx hx' => ?_
    · rw [Function.update_of_ne (hne hmem hx).symm] at hx'
      by_cases hxz : x = z'
      · exact hxz ▸ hz'
      · rw [Function.update_of_ne hxz] at hx'
        exact absurd rfl hx'
    · rw [Function.update_of_ne (hne List.mem_cons_self hx).symm] at hx'
      by_cases hxb : x = b
      · rw [hxb]
        rfl
      · rw [Function.update_of_ne hxb] at hx'
        exact absurd rfl hx'
  · intro x hx y hy
    obtain rfl := Option.some.inj (hz.symm.trans hx)
    obtain rfl := Option.some.inj hy
    refine ⟨Function.update_self .., ?_⟩
    rw [Function.update_of_ne (hne List.mem_cons_self List.mem_cons_self).symm, Function.update_self]
  · intro x hx y hy
    rw [List.getLast?_append_of_ne_nil _ (List.cons_ne_nil _ _)] at hx
    obtain rfl := Option.some.inj (hz'.symm.trans hx)
    obtain rfl := Option.some.inj hy
    refine ⟨?_, Function.update_self ..⟩
    rw [Function.update_of_ne (hne hmem hmem').symm, Function.update_self]

end Ring

end InfixSearch.Library
