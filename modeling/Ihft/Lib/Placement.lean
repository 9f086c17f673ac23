import Mathlib.Tactic

/-!
# Things that are put into one place in some order

Things of different sizes are put one after the other into a place of a given capacity, each of them
if there is room for it at its turn.  Some of them are light: it does not matter whether they find
room, and they all have one size.  `demand_le_iff` says when every other thing that can find room
at all finds it in every order.
-/

namespace Placement

variable {ι : Type*} (size : ι → ℕ)

/-- The room that is left behind the things in `order`. -/
def rest : ℕ → List ι → ℕ
  | room, [] => room
  | room, i :: order => rest (if size i ≤ room then room - size i else room) order

@[simp] theorem rest_nil (room : ℕ) : rest size room [] = room := rfl

theorem rest_append (room : ℕ) (l l' : List ι) :
    rest size room (l ++ l') = rest size (rest size room l) l' := by
  induction l generalizing room with
  | nil => rfl
  | cons i l ih => exact ih _

theorem rest_le (room : ℕ) (l : List ι) : rest size room l ≤ room := by
  induction l generalizing room with
  | nil => exact le_rfl
  | cons i l ih =>
    refine (ih _).trans ?_
    split_ifs
    · exact Nat.sub_le _ _
    · exact le_rfl

/-- Things of one size find room until there is none for another one. -/
theorem rest_of_forall_eq {w : ℕ} {l : List ι} (h : ∀ i ∈ l, size i = w) (room : ℕ) :
    rest size room l = room - w * min l.length (room / w) := by
  induction l generalizing room with
  | nil => simp
  | cons i l ih =>
    have hl : ∀ j ∈ l, size j = w := fun j hj => h j (List.mem_cons_of_mem i hj)
    rw [rest, h i List.mem_cons_self, List.length_cons]
    rcases Nat.eq_zero_or_pos w with rfl | hw
    · simpa using ih hl room
    split_ifs with hroom
    · have hdiv : room / w = (room - w) / w + 1 := by
        rw [← Nat.add_div_right _ hw, Nat.sub_add_cancel hroom]
      rw [ih hl, hdiv, Nat.add_min_add_right, mul_add, mul_one, Nat.sub_sub, add_comm]
    · rw [ih hl, Nat.div_eq_of_lt (not_le.1 hroom), Nat.min_zero, Nat.min_zero]

variable (cap : ℕ) (light : ι → Bool)

/-- The things that are not light and can find room. -/
def heavy (is : List ι) : List ι := is.filter fun i => !light i && decide (size i ≤ cap)

/-- What the heavy things need. -/
def need (is : List ι) : ℕ := ((heavy size cap light is).map size).sum

/-- What the things may need: the heavy ones, and as many light ones as can find room. -/
def demand (w : ℕ) (is : List ι) : ℕ := need size cap light is + w * min (is.countP light) (cap / w)

variable {size cap light}

theorem mem_heavy {is : List ι} {i : ι} :
    i ∈ heavy size cap light is ↔ i ∈ is ∧ light i = false ∧ size i ≤ cap := by
  simp [heavy]

theorem demand_map {κ : Type*} (f : κ → ι) (w : ℕ) (is : List κ) :
    demand (size ∘ f) cap (light ∘ f) w is = demand size cap light w (is.map f) := by
  simp only [demand, need, heavy, List.countP_map, List.filter_map, List.map_map]
  rfl

theorem need_append (l l' : List ι) :
    need size cap light (l ++ l') = need size cap light l + need size cap light l' := by
  simp [need, heavy]

theorem need_cons {i : ι} (hlight : light i = false) (hfits : size i ≤ cap) (l : List ι) :
    need size cap light (i :: l) = size i + need size cap light l := by
  simp [need, heavy, hlight, hfits]

theorem need_le_cons (i : ι) (l : List ι) :
    need size cap light l ≤ need size cap light (i :: l) := by
  have happend : need size cap light (i :: l) = need size cap light [i] + need size cap light l :=
    need_append [i] l
  omega

theorem need_perm {is is' : List ι} (h : is.Perm is') :
    need size cap light is = need size cap light is' :=
  ((h.filter _).map size).sum_eq

/-- What has found room are some of the light things, and at most all of the heavy ones. -/
theorem rest_split {w : ℕ} {l : List ι} (hw : ∀ i ∈ l, light i = true → size i = w) {room : ℕ}
    (hroom : room ≤ cap) : ∃ p q, p ≤ l.countP light ∧ q ≤ need size cap light l ∧
      rest size room l + q + w * p = room := by
  induction l generalizing room with
  | nil => exact ⟨0, 0, by simp⟩
  | cons i l ih =>
    have hl : ∀ j ∈ l, light j = true → size j = w := fun j hj => hw j (List.mem_cons_of_mem i hj)
    have hneed : need size cap light l ≤ need size cap light (i :: l) := need_le_cons i l
    have hcount : l.countP light ≤ (i :: l).countP light := by
      rw [List.countP_cons]
      exact Nat.le_add_right _ _
    rw [rest]
    split_ifs with hfits
    · have hleft : room - size i ≤ cap := (Nat.sub_le _ _).trans hroom
      obtain ⟨p, q, hp, hq, heq⟩ := ih hl hleft
      cases hi : light i with
      | true =>
        have hsize := hw i List.mem_cons_self hi
        refine ⟨p + 1, q, by simp [hi, hp], hq.trans hneed, ?_⟩
        rw [mul_add, mul_one]
        omega
      | false =>
        refine ⟨p, q + size i, hp.trans hcount, ?_, by omega⟩
        rw [need_cons hi (hfits.trans hroom)]
        omega
    · obtain ⟨p, q, hp, hq, heq⟩ := ih hl hroom
      exact ⟨p, q, hp.trans hcount, hq.trans hneed, heq⟩

/-- Things that need more than there is do not all find room. -/
theorem exists_lt_of_sum {l : List ι} {room : ℕ} (h : room < (l.map size).sum) :
    ∃ l₁ i l₂, l = l₁ ++ i :: l₂ ∧ rest size room l₁ < size i := by
  induction l generalizing room with
  | nil => simp at h
  | cons i l ih =>
    by_cases hfits : size i ≤ room
    · rw [List.map_cons, List.sum_cons] at h
      have hleft : room - size i < (l.map size).sum := by omega
      obtain ⟨l₁, j, l₂, rfl, hj⟩ := ih hleft
      exact ⟨i :: l₁, j, l₂, rfl, by rwa [rest, if_pos hfits]⟩
    · exact ⟨[], i, l, rfl, not_le.1 hfits⟩

/-- Every heavy thing finds room in every order. -/
def AlwaysRoom (size : ι → ℕ) (cap : ℕ) (light : ι → Bool) (is : List ι) : Prop :=
  ∀ l i l', (l ++ i :: l').Perm is → light i = false → size i ≤ cap → size i ≤ rest size cap l

theorem alwaysRoom_of_demand_le {w : ℕ} {is : List ι}
    (hw : ∀ i ∈ is, light i = true → size i = w) (h : demand size cap light w is ≤ cap) :
    AlwaysRoom size cap light is := by
  intro l i l' hperm hlight hfits
  have hl : ∀ j ∈ l, light j = true → size j = w := fun j hj =>
    hw j (hperm.subset (List.mem_append_left _ hj))
  obtain ⟨p, q, hp, hq, heq⟩ := rest_split hl (le_refl cap)
  have hcount : l.countP light ≤ is.countP light := by
    rw [← hperm.countP_eq, List.countP_append]
    exact Nat.le_add_right _ _
  have hmin : w * p ≤ w * min (is.countP light) (cap / w) := by
    rcases Nat.eq_zero_or_pos w with rfl | hpos
    · simp
    · refine Nat.mul_le_mul_left w (le_min (hp.trans hcount) ((Nat.le_div_iff_mul_le hpos).2 ?_))
      rw [mul_comm]
      omega
  have hneed : need size cap light l + size i ≤ need size cap light is := by
    rw [← need_perm hperm, need_append, need_cons hlight hfits]
    omega
  unfold demand at h
  omega

/-- The light things first, and then the heavy ones. -/
theorem demand_le_of_alwaysRoom {w : ℕ} {is : List ι}
    (hw : ∀ i ∈ is, light i = true → size i = w) (h : AlwaysRoom size cap light is) :
    demand size cap light w is ≤ cap := by
  by_contra hlt
  have hlights : ∀ i ∈ is.filter light, size i = w := fun i hi =>
    hw i (List.mem_filter.1 hi).1 (List.mem_filter.1 hi).2
  have hrest := rest_of_forall_eq size hlights cap
  rw [← List.countP_eq_length_filter] at hrest
  have hover : rest size cap (is.filter light) < need size cap light is := by
    unfold demand at hlt
    have := Nat.mul_le_mul_left w (Nat.min_le_right (is.countP light) (cap / w))
    have := Nat.mul_div_le cap w
    omega
  obtain ⟨l₁, i, l₂, heq, hi⟩ := exists_lt_of_sum hover
  obtain ⟨-, hlight, hfits⟩ := mem_heavy.1 (heq ▸ List.mem_append_right l₁ List.mem_cons_self)
  -- the things that can find no room at all come last
  have hperm : (is.filter light ++ l₁ ++ i :: (l₂ ++
      (is.filter (!light ·)).filter fun j => !decide (size j ≤ cap))).Perm is := by
    have hheavy : heavy size cap light is =
        (is.filter (!light ·)).filter fun j => decide (size j ≤ cap) := by
      simp [heavy, List.filter_filter, Bool.and_comm]
    have hparts := List.filter_append_perm (fun j => decide (size j ≤ cap)) (is.filter (!light ·))
    rw [← hheavy, heq, List.append_assoc, List.cons_append] at hparts
    rw [List.append_assoc]
    exact (hparts.append_left _).trans (List.filter_append_perm light is)
  have hroom := h _ i _ hperm hlight hfits
  rw [rest_append] at hroom
  omega

/-- Every heavy thing finds room in every order exactly when the demand is not above the
capacity. -/
theorem alwaysRoom_iff {w : ℕ} {is : List ι} (hw : ∀ i ∈ is, light i = true → size i = w) :
    AlwaysRoom size cap light is ↔ demand size cap light w is ≤ cap :=
  ⟨demand_le_of_alwaysRoom hw, alwaysRoom_of_demand_le hw⟩

end Placement
