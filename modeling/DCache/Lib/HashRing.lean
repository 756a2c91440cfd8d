import DCache.Lib.OrdMap

/-! Rings of points, each held by the member that took it first. A member takes its points in
one go, so a ring is determined by who of its members came first at each point. -/
namespace DCache.Lib.HashRing
variable {K A : Type} [LinearOrder K]

def addPoint (a : A) (r : OrdMap K A) (h : K) : OrdMap K A :=
  if r.contains h then r else r.insert h a

variable (points : A → List K)

/-- Let `a` take those of its points that are free. -/
def add (r : OrdMap K A) (a : A) : OrdMap K A := (points a).foldl (addPoint a) r

/-- The ring of members that come one after the other. -/
def build (as : List A) : OrdMap K A := as.foldl (add points) .empty

/-- The holder of the first point at or after `h`. -/
def owner (r : OrdMap K A) (h : K) : Option A := (r.ceil? h).map Prod.snd

theorem find?_addPoint (a : A) (r : OrdMap K A) (h h' : K) :
    (addPoint a r h).find? h' = (r.find? h').or (if h' = h then some a else none) := by
  unfold addPoint
  by_cases hc : r.contains h = true
  · rw [if_pos hc]
    split_ifs with hh
    · obtain ⟨v, hv⟩ := r.contains_iff.mp hc
      rw [hh, hv, Option.or_some]
      rfl
    · rw [Option.or_none]
  · rw [if_neg hc, OrdMap.find?_insert]
    split_ifs with hh
    · have hn : r.find? h = none := by simpa [OrdMap.contains] using hc
      rw [hh, hn]
      rfl
    · rw [Option.or_none]

theorem find?_add (r : OrdMap K A) (a : A) (h : K) :
    (add points r a).find? h = (r.find? h).or (if h ∈ points a then some a else none) := by
  unfold add
  generalize points a = ps
  induction ps generalizing r with
  | nil => simp
  | cons p ps ih =>
    rw [List.foldl_cons, ih, find?_addPoint, Option.or_assoc]
    congr 1
    by_cases hp : h = p
    · simp [hp]
    · simp [hp]

/-- A point is held by the first member that has it. -/
theorem find?_build (as : List A) (h : K) :
    (build points as).find? h = as.find? (fun a => h ∈ points a) := by
  have key : ∀ r : OrdMap K A, (as.foldl (add points) r).find? h =
      (r.find? h).or (as.find? (fun a => h ∈ points a)) := by
    induction as with
    | nil => simp
    | cons a as ih =>
      intro r
      rw [List.foldl_cons, ih, find?_add, Option.or_assoc, List.find?_cons]
      congr 1
      by_cases ha : h ∈ points a <;> simp [ha]
  rw [build, key, OrdMap.find?_empty, Option.none_or]

variable {points}

/-- A point that no earlier member has is held by the first one that has it. -/
theorem find?_build_of_free {as as' : List A} {a : A} {h : K} (hfree : ∀ b ∈ as, h ∉ points b)
    (ha : h ∈ points a) : (build points (as ++ a :: as')).find? h = some a := by
  have hnone : as.find? (fun a => decide (h ∈ points a)) = none :=
    List.find?_eq_none.mpr fun b hb => by simpa using hfree b hb
  rw [find?_build, List.find?_append, hnone, Option.none_or,
    List.find?_cons_of_pos (by simpa using ha)]

/-- A latecomer may be put anywhere among the members, as long as the points it shares with
later ones are held by earlier ones. -/
theorem add_build {as as' : List A} {a : A}
    (hshared : ∀ h ∈ points a, (∃ b ∈ as', h ∈ points b) → ∃ b ∈ as, h ∈ points b) :
    add points (build points (as ++ as')) a = build points (as ++ a :: as') := by
  refine OrdMap.ext_find? fun h => ?_
  rw [find?_add, find?_build, find?_build, List.find?_append, List.find?_append, List.find?_cons,
    Option.or_assoc]
  by_cases ha : h ∈ points a
  · simp only [ha, decide_true, if_true]
    cases hf : as.find? (fun a => decide (h ∈ points a)) with
    | some b => rfl
    | none =>
      have hn : as'.find? (fun a => decide (h ∈ points a)) = none := by
        refine List.find?_eq_none.mpr fun b hb hh => ?_
        obtain ⟨c, hc, hhc⟩ := hshared h ha ⟨b, hb, by simpa using hh⟩
        exact List.find?_eq_none.mp hf c hc (by simpa using hhc)
      rw [hn]
      rfl
  · simp [ha]

/-- A member that holds no point of its own may leave. -/
theorem build_drop {as as' : List A} {a : A} (hheld : ∀ h ∈ points a, ∃ b ∈ as, h ∈ points b) :
    build points (as ++ a :: as') = build points (as ++ as') := by
  refine OrdMap.ext_find? fun h => ?_
  rw [find?_build, find?_build, List.find?_append, List.find?_append, List.find?_cons]
  by_cases ha : h ∈ points a
  · obtain ⟨b, hb, hh⟩ := hheld h ha
    have hs : (as.find? (fun a => decide (h ∈ points a))).isSome = true :=
      List.find?_isSome.mpr ⟨b, hb, by simpa using hh⟩
    obtain ⟨c, hc⟩ := Option.isSome_iff_exists.mp hs
    rw [hc]
    rfl
  · simp [ha]

theorem exists_point_of_owner {r : OrdMap K A} {h : K} {a : A} (ho : owner r h = some a) :
    ∃ k, r.find? k = some a := by
  obtain ⟨e, he, rfl⟩ := Option.map_eq_some_iff.mp ho
  exact ⟨e.1, r.mem_entries.mp (r.ceil?_mem h he)⟩

theorem owner_of_find? {r : OrdMap K A} {h : K} {a : A} (hf : r.find? h = some a) :
    owner r h = some a := by
  rw [owner, r.ceil?_of_find? h hf]
  rfl

theorem owner_eq_none_iff {r : OrdMap K A} {h : K} : owner r h = none ↔ r.entries = [] := by
  rw [owner, Option.map_eq_none_iff, OrdMap.ceil?_eq_none_iff]

variable (points) in
/-- A look-up answers with a member, and fails only where there is none. -/
theorem owner_build (as : List A) (hne : ∀ a ∈ as, points a ≠ []) (h : K) :
    (∃ a ∈ as, owner (build points as) h = some a) ∨ as = [] ∧ owner (build points as) h = none := by
  cases ho : owner (build points as) h with
  | some a =>
    obtain ⟨k, hk⟩ := exists_point_of_owner ho
    rw [find?_build] at hk
    exact Or.inl ⟨a, List.mem_of_find?_eq_some hk, rfl⟩
  | none =>
    refine Or.inr ⟨?_, rfl⟩
    rw [owner_eq_none_iff] at ho
    by_contra has
    obtain ⟨a, as', rfl⟩ := List.exists_cons_of_ne_nil has
    obtain ⟨p, hp⟩ := List.exists_mem_of_ne_nil _ (hne a List.mem_cons_self)
    have hf : (build points (a :: as')).find? p = some a := by
      rw [find?_build, List.find?_cons_of_pos (by simpa using hp)]
    rw [← OrdMap.mem_entries, ho] at hf
    exact List.not_mem_nil hf

section Leave

variable (points) in
/-- Every point is held by a member that has it. -/
def Placed (r : OrdMap K A) : Prop := ∀ h a, r.find? h = some a → h ∈ points a

theorem placed_empty : Placed points (.empty : OrdMap K A) := nofun

theorem Placed.add {r : OrdMap K A} (hr : Placed points r) (a : A) : Placed points (add points r a) := by
  intro h b hb
  rw [find?_add] at hb
  rcases Option.or_eq_some_iff.mp hb with hb | ⟨-, hb⟩
  · exact hr h b hb
  · split_ifs at hb with ha
    exact Option.some.inj hb ▸ ha

variable [DecidableEq A]

def removePoint (a : A) (r : OrdMap K A) (h : K) : OrdMap K A :=
  if r.find? h = some a then r.erase h else r

variable (points) in
/-- Let `a` give up those of its points that it holds. -/
def remove (r : OrdMap K A) (a : A) : OrdMap K A := (points a).foldl (removePoint a) r

theorem find?_removePoint (a : A) (r : OrdMap K A) (h h' : K) :
    (removePoint a r h).find? h' = if h' = h ∧ r.find? h' = some a then none else r.find? h' := by
  unfold removePoint
  by_cases hf : r.find? h = some a
  · rw [if_pos hf, OrdMap.find?_erase]
    by_cases hh : h' = h
    · simp [hh, hf]
    · simp [hh]
  · rw [if_neg hf, if_neg]
    rintro ⟨rfl, h⟩
    exact hf h

theorem find?_remove (r : OrdMap K A) (a : A) (h : K) : (remove points r a).find? h =
    if h ∈ points a ∧ r.find? h = some a then none else r.find? h := by
  unfold remove
  generalize points a = ps
  induction ps generalizing r with
  | nil => simp
  | cons p ps ih =>
    rw [List.foldl_cons, ih, find?_removePoint]
    by_cases hp : h = p
    · by_cases hf : r.find? h = some a <;> simp [hp, hp ▸ hf]
    · simp [hp]

/-- Only the points of the member that leaves are given up. -/
theorem Placed.find?_remove {r : OrdMap K A} (hr : Placed points r) (a : A) (h : K) :
    (remove points r a).find? h = if r.find? h = some a then none else r.find? h := by
  rw [HashRing.find?_remove]
  by_cases hf : r.find? h = some a
  · rw [if_pos ⟨hr h a hf, hf⟩, if_pos hf]
  · rw [if_neg fun hh => hf hh.2, if_neg hf]

theorem Placed.remove {r : OrdMap K A} (hr : Placed points r) (a : A) :
    Placed points (remove points r a) := by
  intro h b hb
  rw [hr.find?_remove] at hb
  split_ifs at hb
  exact hr h b hb

end Leave

section Disruption

theorem owner_eq_some_iff {r : OrdMap K A} {h : K} {a : A} :
    owner r h = some a ↔ ∃ p, r.find? p = some a ∧ r.Meets h p := by
  rw [owner, Option.map_eq_some_iff]
  constructor
  · rintro ⟨e, he, rfl⟩
    exact ⟨e.1, (r.ceil?_eq_some_iff h).mp he⟩
  · rintro ⟨p, hp⟩
    exact ⟨(p, a), (r.ceil?_eq_some_iff h).mpr hp, rfl⟩

variable (points) in
/-- A member that joins takes keys for itself only. -/
theorem owner_add (r : OrdMap K A) (a : A) (h : K) :
    owner (add points r a) h = owner r h ∨ owner (add points r a) h = some a := by
  have hsub : ∀ p b, r.find? p = some b → (add points r a).find? p = some b := fun p b hb => by
    rw [find?_add, hb, Option.some_or]
  cases hc : (add points r a).ceil? h with
  | none =>
    -- a ring that holds nothing afterwards held nothing before
    have hnil := (OrdMap.ceil?_eq_none_iff _ h).mp hc
    have hempty : r.entries = [] := List.eq_nil_iff_forall_not_mem.mpr fun e he => by
      have hmem := (OrdMap.mem_entries _).mpr (hsub e.1 e.2 (r.mem_entries.mp he))
      rw [hnil] at hmem
      cases hmem
    left
    rw [owner, owner, hc, (OrdMap.ceil?_eq_none_iff _ h).mpr hempty]
  | some e =>
    have he := ((OrdMap.ceil?_eq_some_iff _ h).mp hc).1
    rw [find?_add] at he
    rcases Option.or_eq_some_iff.mp he with hr | ⟨-, hnew⟩
    · left
      rw [owner, owner, hc, r.ceil?_of_subset h hsub hc hr]
    · right
      split_ifs at hnew
      rw [owner, hc, Option.map_some, ← hnew]

/-- A member that leaves gives up its own keys only. -/
theorem owner_remove [DecidableEq A] {r : OrdMap K A} (hr : Placed points r) {a : A} {h : K}
    (ho : owner r h ≠ some a) : owner (remove points r a) h = owner r h := by
  have hsub : ∀ p b, (remove points r a).find? p = some b → r.find? p = some b := fun p b hb => by
    rw [hr.find?_remove] at hb
    split_ifs at hb
    exact hb
  cases hc : r.ceil? h with
  | none =>
    have hnil := (OrdMap.ceil?_eq_none_iff _ h).mp hc
    have hempty : (remove points r a).entries = [] :=
        List.eq_nil_iff_forall_not_mem.mpr fun e he => by
      have hmem := r.mem_entries.mpr (hsub e.1 e.2 ((OrdMap.mem_entries _).mp he))
      rw [hnil] at hmem
      cases hmem
    rw [owner, owner, hc, (OrdMap.ceil?_eq_none_iff _ h).mpr hempty]
  | some e =>
    have he := ((OrdMap.ceil?_eq_some_iff _ h).mp hc).1
    have hkept : (remove points r a).find? e.1 = some e.2 := by
      rw [hr.find?_remove, he, if_neg]
      rintro heq
      rw [owner, hc, Option.map_some] at ho
      exact ho heq
    rw [owner, owner, hc, OrdMap.ceil?_of_subset _ h hsub hc hkept]

end Disruption

section Apart

variable (points) in
/-- No two members have a point in common. -/
def Apart (as : List A) : Prop := ∀ a ∈ as, ∀ b ∈ as, ∀ h ∈ points a, h ∈ points b → a = b

omit [LinearOrder K] in
theorem Apart.of_subset {as bs : List A} (h : Apart points as) (hs : ∀ b ∈ bs, b ∈ as) :
    Apart points bs := fun a ha b hb => h a (hs a ha) b (hs b hb)

theorem Apart.find?_build {as : List A} (ha : Apart points as) {h : K} {a : A} :
    (build points as).find? h = some a ↔ a ∈ as ∧ h ∈ points a := by
  rw [HashRing.find?_build]
  constructor
  · intro hf
    exact ⟨List.mem_of_find?_eq_some hf, by simpa using List.find?_some hf⟩
  · rintro ⟨hmem, hp⟩
    obtain ⟨b, hb⟩ := Option.isSome_iff_exists.mp
      (List.find?_isSome.mpr ⟨a, hmem, by simpa using hp⟩ :
        (as.find? fun a => decide (h ∈ points a)).isSome = true)
    have hpb : h ∈ points b := by simpa using List.find?_some hb
    rw [hb, ha b (List.mem_of_find?_eq_some hb) a hmem h hpb hp]

/-- Members that are apart make the same ring in every order. -/
theorem Apart.eq_build {as : List A} (ha : Apart points as) {r : OrdMap K A}
    (hr : ∀ h a, r.find? h = some a ↔ a ∈ as ∧ h ∈ points a) : r = build points as := by
  refine OrdMap.ext_find? fun h => Option.ext fun a => ?_
  rw [hr h a, ha.find?_build]

/-- Where members are apart, a key belongs to the one with the first point at or behind it, or with
the first point of all. -/
theorem Apart.owner_build_iff {as : List A} (ha : Apart points as) {h : K} {a : A} :
    owner (build points as) h = some a ↔ a ∈ as ∧ ∃ p ∈ points a,
      (h ≤ p ∧ ∀ b ∈ as, ∀ q ∈ points b, h ≤ q → p ≤ q) ∨
        ∀ b ∈ as, ∀ q ∈ points b, q < h ∧ p ≤ q := by
  have hc : ∀ q, (build points as).contains q = true ↔ ∃ b ∈ as, q ∈ points b := fun q => by
    rw [OrdMap.contains_iff]
    exact exists_congr fun b => ha.find?_build
  have hmeets : ∀ p, (build points as).Meets h p ↔
      (h ≤ p ∧ ∀ b ∈ as, ∀ q ∈ points b, h ≤ q → p ≤ q) ∨
        ∀ b ∈ as, ∀ q ∈ points b, q < h ∧ p ≤ q := fun p => by
    simp only [OrdMap.Meets, hc, forall_exists_index, and_imp]
    constructor
    · rintro (⟨hle, hleast⟩ | hbelow)
      · exact Or.inl ⟨hle, fun b hb q hq => hleast q b hb hq⟩
      · exact Or.inr fun b hb q hq => hbelow q b hb hq
    · rintro (⟨hle, hleast⟩ | hbelow)
      · exact Or.inl ⟨hle, fun q b hb hq => hleast b hb q hq⟩
      · exact Or.inr fun q b hb hq => hbelow b hb q hq
  rw [owner_eq_some_iff]
  constructor
  · rintro ⟨p, hp, hm⟩
    obtain ⟨hmem, hpa⟩ := ha.find?_build.mp hp
    exact ⟨hmem, p, hpa, (hmeets p).mp hm⟩
  · rintro ⟨hmem, p, hpa, hm⟩
    exact ⟨p, ha.find?_build.mpr ⟨hmem, hpa⟩, (hmeets p).mpr hm⟩

end Apart

end DCache.Lib.HashRing
