import Mathlib.Data.List.Forall2
import PowerFormulas.Entry
import PowerFormulas.Json.Document
import PowerFormulas.Proofs.Json.Documents

/-!
# Documents that are read back

A way of writing values and a way of reading them belong together if whatever is written is read as
what it was (`RoundTrips`). The compact text of such a document then leads back to it
(`RoundTrips.read?_write`), and so it is for tables of what is written and read so
(`RoundTrips.table`).
-/

namespace PowerFormulas.Json

open Value (text natural ofMembers ofTable members? table? field?)

/-! ### Values that can be written -/

def Value.IsCanonical (v : Value) : Prop := ∀ t ∈ v.tokens, t.IsCanonical

theorem isCanonical_scalar {s : Scalar} (h : s.IsCanonical) : (Value.scalar s).IsCanonical := by
  intro t ht
  rw [Value.tokens, List.mem_singleton] at ht
  rw [ht]
  exact h

theorem isCanonical_text (s : String) : (text s).IsCanonical := isCanonical_scalar trivial

theorem isCanonical_natural (n : Nat) : (natural n).IsCanonical := isCanonical_scalar trivial

theorem isCanonical_of_mem_itemTokens {items : List Value}
    (h : ∀ item ∈ items, item.IsCanonical) : ∀ t ∈ itemTokens items, t.IsCanonical := by
  induction items with
  | nil =>
    intro t ht
    rw [itemTokens] at ht
    cases ht
  | cons item items ih =>
    have hitem := h item List.mem_cons_self
    have hmore := ih fun item hitem => h item (List.mem_cons_of_mem _ hitem)
    cases items with
    | nil =>
      rw [itemTokens]
      exact hitem
    | cons next rest =>
      intro t ht
      rw [itemTokens, List.mem_append, List.mem_cons] at ht
      rcases ht with ht | rfl | ht
      · exact hitem t ht
      · trivial
      · exact hmore t ht

theorem isCanonical_array {items : List Value} (h : ∀ item ∈ items, item.IsCanonical) :
    (Value.array items).IsCanonical := by
  intro t ht
  rw [Value.tokens, List.cons_append, List.mem_cons, List.mem_append, List.mem_singleton] at ht
  rcases ht with rfl | ht | rfl
  · trivial
  · exact isCanonical_of_mem_itemTokens h t ht
  · trivial

theorem isCanonical_of_mem_memberTokens {members : List (Option String × Value)}
    (h : ∀ member ∈ members, member.2.IsCanonical) :
    ∀ t ∈ memberTokens members, t.IsCanonical := by
  induction members with
  | nil =>
    intro t ht
    rw [memberTokens] at ht
    cases ht
  | cons member members ih =>
    obtain ⟨name, v⟩ := member
    have hv : v.IsCanonical := h (name, v) List.mem_cons_self
    have hmore := ih fun member hmember => h member (List.mem_cons_of_mem _ hmember)
    cases members with
    | nil =>
      intro t ht
      rw [memberTokens, List.mem_cons, List.mem_cons] at ht
      rcases ht with rfl | rfl | ht
      · trivial
      · trivial
      · exact hv t ht
    | cons next rest =>
      intro t ht
      rw [memberTokens, List.cons_append, List.cons_append, List.mem_cons, List.mem_cons,
        List.mem_append, List.mem_cons] at ht
      rcases ht with rfl | rfl | ht | rfl | ht
      · trivial
      · trivial
      · exact hv t ht
      · trivial
      · exact hmore t ht

theorem isCanonical_ofMembers {members : List (String × Value)}
    (h : ∀ member ∈ members, member.2.IsCanonical) : (ofMembers members).IsCanonical := by
  intro t ht
  rw [ofMembers, Value.tokens, List.cons_append, List.mem_cons, List.mem_append,
    List.mem_singleton] at ht
  rcases ht with rfl | ht | rfl
  · trivial
  · refine isCanonical_of_mem_memberTokens ?_ t ht
    intro member hmember
    obtain ⟨written, hwritten, rfl⟩ := List.mem_map.1 hmember
    exact h written hwritten
  · trivial

theorem isCanonical_pair {first second : String} {a b : Value} (ha : a.IsCanonical)
    (hb : b.IsCanonical) : (ofMembers [(first, a), (second, b)]).IsCanonical := by
  apply isCanonical_ofMembers
  intro member hmember
  rw [List.mem_cons, List.mem_singleton] at hmember
  rcases hmember with rfl | rfl
  · exact ha
  · exact hb

/-! ### Reading the shapes -/

theorem mapM_eq_some_iff {α β : Type} {f : α → Option β} {xs : List α} {ys : List β} :
    xs.mapM f = some ys ↔ List.Forall₂ (fun x y => f x = some y) xs ys := by
  induction xs generalizing ys with
  | nil =>
    rw [List.mapM_nil, List.forall₂_nil_left_iff]
    exact ⟨fun h => (Option.some.inj h).symm, fun h => congrArg some h.symm⟩
  | cons x xs ih =>
    simp only [List.mapM_cons, List.forall₂_cons_left_iff, Option.bind_eq_bind,
      Option.bind_eq_some_iff, ih]
    refine exists_congr fun y => ⟨fun h => ?_, fun h => ?_⟩
    · obtain ⟨hy, ys', hys, h⟩ := h
      exact ⟨ys', hy, hys, (Option.some.inj h).symm⟩
    · obtain ⟨ys', hy, hys, h⟩ := h
      exact ⟨hy, ys', hys, congrArg some h.symm⟩

theorem text?_text (s : String) : (text s).text? = some s := rfl

theorem text?_eq_some_iff {v : Value} {s : String} : v.text? = some s ↔ v = text s := by
  refine ⟨fun h => ?_, fun h => by rw [h, text?_text]⟩
  unfold Value.text? at h
  split at h
  · rw [h]
    rfl
  · cases h

theorem word?_natural (w : UInt32) : (natural w.toNat).word? = some w := by
  rw [natural, Value.word?, if_pos w.toNat_lt, UInt32.ofNat_toNat]

theorem word?_eq_some_iff {v : Value} {w : UInt32} : v.word? = some w ↔ v = natural w.toNat := by
  refine ⟨fun h => ?_, fun h => by rw [h, word?_natural]⟩
  unfold Value.word? at h
  split at h
  · rw [Option.ite_none_right_eq_some] at h
    obtain ⟨hlt, h⟩ := h
    rw [← Option.some.inj h, UInt32.toNat_ofNat_of_lt' hlt]
    rfl
  · cases h

theorem members?_ofMembers (members : List (String × Value)) :
    (ofMembers members).members? = some members := by
  rw [ofMembers, members?]
  induction members with
  | nil => rfl
  | cons member members ih =>
    rw [List.map_cons, List.mapM_cons, ih]
    rfl

theorem members?_eq_some_iff {v : Value} {members : List (String × Value)} :
    v.members? = some members ↔ v = ofMembers members := by
  refine ⟨fun h => ?_, fun h => by rw [h, members?_ofMembers]⟩
  unfold members? at h
  split at h
  · rename_i named
    rw [ofMembers]
    congr 1
    have hnamed := mapM_eq_some_iff.1 h
    clear h
    induction hnamed with
    | nil => rfl
    | @cons member _ _ _ hmember _ ih =>
      obtain ⟨written, v⟩ := member
      obtain ⟨name, hname, rfl⟩ := Option.map_eq_some_iff.1 hmember
      rw [List.map_cons, ← ih]
      exact congrArg (fun name => (name, v) :: _) hname
  · cases h

theorem fields?_ofMembers {first second : String} (h : first ≠ second) (a b : Value) :
    (ofMembers [(first, a), (second, b)]).fields? first second = some (a, b) := by
  have hmembers := members?_ofMembers [(first, a), (second, b)]
  rw [ofMembers] at hmembers ⊢
  have hfirst : field? first [(first, a), (second, b)] = some a := by simp [field?, h.symm]
  have hsecond : field? second [(first, a), (second, b)] = some b := by simp [field?, h]
  rw [List.map_cons, List.map_cons, List.map_nil] at hmembers ⊢
  simp only [Value.fields?, hmembers, Option.bind_eq_bind, Option.bind_some, hfirst, hsecond]
  rfl

theorem mapM_eq_some_self {α : Type} {f : α → Option α} (h : ∀ a, f a = some a) (list : List α) :
    list.mapM f = some list := by
  induction list with
  | nil => rfl
  | cons a list ih =>
    rw [List.mapM_cons, h, ih]
    rfl

section Tables

variable {α : Type} {read : Value → Option α} {members : List (String × Value)}
  {table : Std.ExtTreeMap String α}

/-- What is read of a table has its names, each with what is read of its value. -/
theorem table?_ofMembers_eq_some_iff : (ofMembers members).table? read = some table ↔
    ∃ pairs, List.Forall₂ (fun member pair => pair.1 = member.1 ∧ read member.2 = some pair.2)
      members pairs ∧ table = .ofList pairs := by
  rw [table?, members?_ofMembers]
  simp only [Option.bind_eq_bind, Option.bind_some, Option.bind_eq_some_iff, mapM_eq_some_iff]
  refine exists_congr fun pairs => and_congr ?_ ?_
  · refine iff_of_eq (congrArg (List.Forall₂ · members pairs) ?_)
    ext member pair
    rw [Option.map_eq_some_iff]
    refine ⟨fun h => ?_, fun h => ⟨pair.2, h.2, Prod.ext h.1.symm rfl⟩⟩
    obtain ⟨a, ha, rfl⟩ := h
    exact ⟨rfl, ha⟩
  · exact ⟨fun h => (Option.some.inj h).symm, fun h => congrArg some h.symm⟩

/-- A table is read just if each of its values is, also where its name comes again. -/
theorem exists_table?_ofMembers_iff : (∃ table, (ofMembers members).table? read = some table) ↔
    ∀ member ∈ members, ∃ a, read member.2 = some a := by
  simp only [table?_ofMembers_eq_some_iff]
  refine ⟨fun h => ?_, fun h => ?_⟩
  · obtain ⟨_, pairs, hpairs, -⟩ := h
    induction hpairs with
    | nil => exact nofun
    | cons hmember _ ih => exact List.forall_mem_cons.2 ⟨⟨_, hmember.2⟩, ih⟩
  · induction members with
    | nil => exact ⟨_, [], .nil, rfl⟩
    | cons member members ih =>
      obtain ⟨⟨a, ha⟩, hmore⟩ := List.forall_mem_cons.1 h
      obtain ⟨_, pairs, hpairs, -⟩ := ih hmore
      exact ⟨_, (member.1, a) :: pairs, .cons ⟨rfl, ha⟩ hpairs, rfl⟩

theorem lookup_of_forall₂ {pairs : List (String × α)}
    (h : List.Forall₂ (fun member pair => pair.1 = member.1 ∧ read member.2 = some pair.2)
      members pairs) (key : String) : pairs.lookup key = (members.lookup key).bind read := by
  induction h with
  | nil => rfl
  | cons hmember _ ih =>
    obtain ⟨hname, hread⟩ := hmember
    rw [List.lookup_cons, List.lookup_cons, hname]
    split
    · rw [Option.bind_some, hread]
    · exact ih

/-- Of the values that have one name the last one counts. -/
theorem getElem?_of_table? (h : (ofMembers members).table? read = some table) (key : String) :
    table[key]? = (members.reverse.lookup key).bind read := by
  obtain ⟨pairs, hpairs, rfl⟩ := table?_ofMembers_eq_some_iff.1 h
  rw [getElem?_ofList, lookup_of_forall₂ (List.rel_reverse hpairs)]

end Tables

theorem ofList_toList {α : Type} (table : Std.ExtTreeMap String α) :
    Std.ExtTreeMap.ofList table.toList = table := by
  apply Std.ExtTreeMap.ext_getElem?
  intro key
  cases h : table[key]? with
  | none =>
    apply Std.ExtTreeMap.getElem?_ofList_of_contains_eq_false
    rw [Std.ExtTreeMap.map_fst_toList_eq_keys, Std.ExtTreeMap.contains_keys,
      Std.ExtTreeMap.contains_eq_isSome_getElem?, h]
    rfl
  | some a =>
    exact Std.ExtTreeMap.getElem?_ofList_of_mem Std.ReflCmp.compare_self
      Std.ExtTreeMap.distinct_keys_toList (Std.ExtTreeMap.mem_toList_iff_getElem?_eq_some.2 h)

/-! ### Writing and reading that belong together -/

structure RoundTrips {α : Type} (write : α → Value) (read : Value → Option α) : Prop where
  canonical (a : α) : (write a).IsCanonical
  read_write (a : α) : read (write a) = some a

namespace RoundTrips

variable {α : Type} {write : α → Value} {read : Value → Option α}

theorem read?_write (h : RoundTrips write read) (a : α) :
    Value.read? (write a).write >>= read = some a := by
  rw [Value.read?_write _ (h.canonical a)]
  exact h.read_write a

theorem table (h : RoundTrips write read) : RoundTrips (ofTable write) (table? read) where
  canonical table := by
    refine isCanonical_ofMembers fun member hmember => ?_
    obtain ⟨⟨key, a⟩, -, rfl⟩ := List.mem_map.1 hmember
    exact h.canonical a
  read_write table := by
    rw [ofTable, table?, members?_ofMembers]
    simp only [Option.bind_eq_bind, Option.bind_some, List.mapM_map]
    rw [mapM_eq_some_self, Option.bind_some, ofList_toList]
    · rfl
    · intro pair
      show (read (write pair.2)).map (fun a => (pair.1, a)) = some pair
      rw [h.read_write]
      rfl

end RoundTrips

end PowerFormulas.Json
