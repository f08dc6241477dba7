import FecRelay.Base.Method

/-!
# Ordered maps

A map with a comparison on its keys, whose entries are visited in the order of the
keys. The entries of a map are sorted, so a loop over its values visits each once.
-/

namespace FecRelay.Base

structure OrderedMap (κ α : Type) [LinearOrder κ] where
  entries : List (κ × α)
  sorted : entries.Pairwise fun x y => x.1 < y.1

namespace OrderedMap

variable {κ α ε : Type} [LinearOrder κ]

def empty : OrderedMap κ α := ⟨[], .nil⟩

/-! ## Entries -/

/-- The value of the entry with key `k`. -/
def lookup (k : κ) : List (κ × α) → Option α
  | [] => none
  | (j, x) :: rest => if j = k then some x else lookup k rest

/-- The entries once `k` has the value `v`. -/
def put (k : κ) (v : α) : List (κ × α) → List (κ × α)
  | [] => [(k, v)]
  | (j, x) :: rest =>
      if k < j then (k, v) :: (j, x) :: rest
      else if k = j then (k, v) :: rest
      else (j, x) :: put k v rest

theorem mem_of_lookup_isSome {k : κ} {entries : List (κ × α)}
    (h : (lookup k entries).isSome = true) : k ∈ entries.map Prod.fst := by
  induction entries with
  | nil => cases h
  | cons entry rest ih =>
      obtain ⟨j, v⟩ := entry
      by_cases hkey : j = k
      · rw [← hkey]
        exact List.mem_cons_self
      · rw [lookup, if_neg hkey] at h
        exact List.mem_cons_of_mem _ (ih h)

theorem lookup_put (j k : κ) (v : α) (entries : List (κ × α)) :
    lookup j (put k v entries) = if k = j then some v else lookup j entries := by
  induction entries with
  | nil => rfl
  | cons entry rest ih =>
      obtain ⟨i, x⟩ := entry
      unfold put
      split
      · rfl
      split
      · next heq =>
          subst heq
          show (if k = j then some v else lookup j rest) =
            if k = j then some v else if k = j then some x else lookup j rest
          split <;> rfl
      · next hne =>
          show (if i = j then some x else lookup j (put k v rest)) =
            if k = j then some v else if i = j then some x else lookup j rest
          rw [ih]
          by_cases hij : i = j
          · rw [if_pos hij, if_pos hij, if_neg (fun hkj => hne (hkj.trans hij.symm))]
          · rw [if_neg hij, if_neg hij]

theorem mem_put {k : κ} {v : α} {entries : List (κ × α)} {entry : κ × α}
    (h : entry ∈ put k v entries) : entry.1 = k ∨ entry ∈ entries := by
  induction entries with
  | nil =>
      rw [List.mem_singleton.mp h]
      exact Or.inl rfl
  | cons first rest ih =>
      unfold put at h
      split at h
      · rcases List.mem_cons.mp h with rfl | h
        · exact Or.inl rfl
        · exact Or.inr h
      split at h
      · rcases List.mem_cons.mp h with rfl | h
        · exact Or.inl rfl
        · exact Or.inr (List.mem_cons_of_mem _ h)
      · rcases List.mem_cons.mp h with rfl | h
        · exact Or.inr List.mem_cons_self
        · exact (ih h).imp_right (List.mem_cons_of_mem _)

theorem sorted_put (k : κ) (v : α) {entries : List (κ × α)}
    (h : entries.Pairwise fun x y => x.1 < y.1) :
    (put k v entries).Pairwise fun x y => x.1 < y.1 := by
  induction entries with
  | nil => exact List.pairwise_singleton _ _
  | cons first rest ih =>
      have hrest := List.pairwise_cons.mp h
      unfold put
      split
      · next hlt =>
          refine List.pairwise_cons.mpr ⟨?_, h⟩
          intro entry hentry
          rcases List.mem_cons.mp hentry with rfl | hentry
          · exact hlt
          · exact lt_trans hlt (hrest.1 entry hentry)
      split
      · next heq =>
          refine List.pairwise_cons.mpr ⟨?_, hrest.2⟩
          intro entry hentry
          show k < entry.1
          rw [heq]
          exact hrest.1 entry hentry
      · next hge hne =>
          refine List.pairwise_cons.mpr ⟨?_, ih hrest.2⟩
          intro entry hentry
          rcases mem_put hentry with hkey | hentry
          · rw [hkey]
            exact lt_of_le_of_ne (not_lt.mp hge) (Ne.symm hne)
          · exact hrest.1 entry hentry

/-! ## Maps -/

def find? (m : OrderedMap κ α) (k : κ) : Option α := lookup k m.entries

def insertOrAssign (k : κ) (v : α) (m : OrderedMap κ α) : OrderedMap κ α :=
  ⟨put k v m.entries, sorted_put k v m.sorted⟩

@[simp] theorem find?_empty (k : κ) : (empty : OrderedMap κ α).find? k = none := rfl

theorem find?_insertOrAssign (j k : κ) (v : α) (m : OrderedMap κ α) :
    (m.insertOrAssign k v).find? j = if k = j then some v else m.find? j :=
  lookup_put j k v m.entries

/-! ## Range-for over the values -/

/-- `for(auto& [k, v] : entries) body(k, v)`: the first throw ends the loop. -/
def forEntries (body : κ → Method ε α Unit) : Method ε (List (κ × α)) Unit
  | [] => .ok () []
  | (k, v) :: rest =>
      match body k v with
      | .error e v' => .error e ((k, v') :: rest)
      | .ok _ v' =>
          match forEntries body rest with
          | .error e rest' => .error e ((k, v') :: rest')
          | .ok _ rest' => .ok () ((k, v') :: rest')

omit [LinearOrder κ] in
/-- The loop leaves the keys alone. -/
theorem keys_forEntries (body : κ → Method ε α Unit) (entries : List (κ × α)) :
    (Method.after (forEntries body entries)).map (·.1) = entries.map (·.1) := by
  induction entries with
  | nil => rfl
  | cons entry rest ih =>
      obtain ⟨k, v⟩ := entry
      unfold forEntries
      cases body k v with
      | error e v' => rfl
      | ok _ v' =>
          cases hrest : forEntries body rest with
          | error e rest' =>
              rw [hrest] at ih
              exact congrArg (List.cons k) ih
          | ok _ rest' =>
              rw [hrest] at ih
              exact congrArg (List.cons k) ih

theorem sorted_of_keys {β : Type} {entries : List (κ × α)} {entries' : List (κ × β)}
    (h : entries'.map (·.1) = entries.map (·.1)) (hsorted : entries.Pairwise fun x y => x.1 < y.1) :
    entries'.Pairwise fun x y => x.1 < y.1 := by
  have hkeys : (entries.map (·.1)).Pairwise (· < ·) := List.pairwise_map.mpr hsorted
  rw [← h] at hkeys
  exact List.pairwise_map.mp hkeys

def forValues (body : κ → Method ε α Unit) : Method ε (OrderedMap κ α) Unit := fun m =>
  match h : forEntries body m.entries with
  | .ok _ entries => .ok () ⟨entries, sorted_of_keys
      (by rw [← keys_forEntries body m.entries, h]; rfl) m.sorted⟩
  | .error e entries => .error e ⟨entries, sorted_of_keys
      (by rw [← keys_forEntries body m.entries, h]; rfl) m.sorted⟩

theorem forValues_avoids {e : ε} {body : κ → Method ε α Unit}
    (h : ∀ k, Method.Avoids e (body k)) : Method.Avoids e (forValues body) := by
  have hloop : ∀ entries : List (κ × α), Method.NeverThrows e (forEntries body) entries := by
    intro entries
    unfold Method.NeverThrows
    induction entries with
    | nil => simp [forEntries]
    | cons entry rest ih =>
        obtain ⟨k, v⟩ := entry
        have hv := h k v
        unfold Method.NeverThrows at hv
        unfold forEntries
        cases hbody : body k v with
        | error e' v' =>
            rw [hbody] at hv
            exact hv
        | ok _ v' =>
            cases hrest : forEntries body rest with
            | error e' rest' =>
                rw [hrest] at ih
                exact ih
            | ok _ rest' => simp
  intro m
  have hm := hloop m.entries
  unfold Method.NeverThrows at hm ⊢
  unfold forValues
  split
  · simp
  · next e' entries hentries =>
      rw [hentries] at hm
      exact hm

/-- What a loop that ended did with the value of key `k`, if there is one. -/
def Visited (body : κ → Method ε α Unit) (k : κ) (v v' : Option α) : Prop :=
  (v = none ∧ v' = none) ∨ ∃ x x', v = some x ∧ body k x = .ok () x' ∧ v' = some x'

theorem visited_of_forEntries {body : κ → Method ε α Unit} (k : κ) :
    ∀ {entries entries' : List (κ × α)}, forEntries body entries = .ok () entries' →
      Visited body k (lookup k entries) (lookup k entries') := by
  intro entries
  induction entries with
  | nil =>
      intro entries' h
      cases h
      exact Or.inl ⟨rfl, rfl⟩
  | cons entry rest ih =>
      intro entries' h
      obtain ⟨j, v⟩ := entry
      unfold forEntries at h
      cases hv : body j v with
      | error e v' =>
          rw [hv] at h
          cases h
      | ok _ v' =>
          rw [hv] at h
          cases hrest : forEntries body rest with
          | error e rest' =>
              rw [hrest] at h
              cases h
          | ok _ rest' =>
              rw [hrest] at h
              cases h
              show Visited body k (if j = k then some v else lookup k rest)
                (if j = k then some v' else lookup k rest')
              by_cases hk : j = k
              · rw [if_pos hk, if_pos hk]
                exact Or.inr ⟨v, v', rfl, hk ▸ hv, rfl⟩
              · rw [if_neg hk, if_neg hk]
                exact ih hrest

theorem visited_of_forValues {body : κ → Method ε α Unit} {m m' : OrderedMap κ α}
    (h : forValues body m = .ok () m') (k : κ) : Visited body k (m.find? k) (m'.find? k) := by
  unfold forValues at h
  split at h
  · next entries hentries =>
      cases h
      exact visited_of_forEntries k hentries
  · cases h

end OrderedMap

end FecRelay.Base
