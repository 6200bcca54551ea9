import Mathlib.Data.List.Dedup
import Mathlib.Data.List.Induction

/-!
# Dictionaries

Pairs whose keys differ. Storing under a key replaces what was there, so of a list
of pairs the last one of each key remains.
-/

namespace Smalltable

structure Dict (κ β : Type) where
  items : List (κ × β)
  nodup : (items.map Prod.fst).Nodup

namespace Dict

variable {κ β : Type}

def keys (d : Dict κ β) : List κ := d.items.map Prod.fst

def empty : Dict κ β := ⟨[], List.nodup_nil⟩

variable [DecidableEq κ]

def get? (d : Dict κ β) (k : κ) : Option β := (d.items.find? fun p => p.1 = k).map Prod.snd

def set (d : Dict κ β) (k : κ) (v : β) : Dict κ β where
  items := d.items.filter (fun p => p.1 ≠ k) ++ [(k, v)]
  nodup := by
    rw [List.map_append, List.nodup_append]
    refine ⟨(List.filter_sublist.map _).nodup d.nodup, by simp, ?_⟩
    intro a ha b hb hab
    obtain ⟨p, hp, rfl⟩ := List.mem_map.mp ha
    rw [List.map_singleton, List.mem_singleton] at hb
    have hne := (List.mem_filter.mp hp).2
    rw [decide_eq_true_eq] at hne
    exact hne (hab.trans hb)

def ofList (l : List (κ × β)) : Dict κ β := l.foldl (fun d p => d.set p.1 p.2) empty

theorem items_set (d : Dict κ β) (k : κ) (v : β) :
    (d.set k v).items = d.items.filter (fun p => p.1 ≠ k) ++ [(k, v)] := rfl

theorem mem_set {d : Dict κ β} {k k' : κ} {v v' : β} :
    (k', v') ∈ (d.set k v).items ↔ (k' = k ∧ v' = v) ∨ (k' ≠ k ∧ (k', v') ∈ d.items) := by
  rw [items_set, List.mem_append, List.mem_filter, List.mem_singleton, Prod.mk.injEq,
      decide_eq_true_eq]
  constructor
  · rintro (⟨hmem, hne⟩ | h)
    · exact .inr ⟨hne, hmem⟩
    · exact .inl h
  · rintro (h | ⟨hne, hmem⟩)
    · exact .inr h
    · exact .inl ⟨hmem, hne⟩

theorem ofList_concat (l : List (κ × β)) (k : κ) (v : β) :
    ofList (l ++ [(k, v)]) = (ofList l).set k v := by
  rw [ofList, List.foldl_append]
  rfl

/-- The last pair of each key. -/
theorem mem_ofList {l : List (κ × β)} {k : κ} {v : β} : (k, v) ∈ (ofList l).items ↔
    ∃ before after, l = before ++ (k, v) :: after ∧ k ∉ after.map Prod.fst := by
  induction l using List.reverseRecOn with
  | nil => simp [ofList, empty]
  | append_singleton l p ih =>
      obtain ⟨k', v'⟩ := p
      rw [ofList_concat, mem_set, ih]
      constructor
      · rintro (⟨rfl, rfl⟩ | ⟨hne, before, after, rfl, hnot⟩)
        · exact ⟨l, [], rfl, List.not_mem_nil⟩
        · refine ⟨before, after ++ [(k', v')], by simp, ?_⟩
          rw [List.map_append, List.mem_append, not_or]
          exact ⟨hnot, by simpa using hne⟩
      · rintro ⟨before, after, hsplit, hnot⟩
        rcases List.eq_nil_or_concat' after with rfl | ⟨init, last, rfl⟩
        · have hlast := List.append_inj_right' hsplit rfl
          rw [List.singleton_inj, Prod.mk.injEq] at hlast
          exact .inl ⟨hlast.1.symm, hlast.2.symm⟩
        · have hinit : l = before ++ (k, v) :: init := List.append_inj_left'
            (hsplit.trans (by simp : _ = before ++ (k, v) :: init ++ [last])) rfl
          have hlast := List.append_inj_right'
            (hsplit.trans (by simp : _ = before ++ (k, v) :: init ++ [last])) rfl
          rw [List.singleton_inj] at hlast
          rw [List.map_append, List.mem_append, not_or] at hnot
          refine .inr ⟨fun heq => hnot.2 ?_, before, init, hinit, hnot.1⟩
          rw [heq, ← hlast]
          exact List.mem_singleton_self _

theorem mem_keys_ofList {l : List (κ × β)} {k : κ} :
    k ∈ (ofList l).keys ↔ k ∈ l.map Prod.fst := by
  induction l using List.reverseRecOn with
  | nil => simp [ofList, empty, keys]
  | append_singleton l p ih =>
      obtain ⟨k', v'⟩ := p
      rw [ofList_concat, keys, List.map_append, List.mem_append, ← ih]
      simp only [keys, items_set, List.map_append, List.mem_append, List.mem_map, List.mem_filter,
        decide_eq_true_eq, List.map_cons, List.map_nil, List.mem_singleton]
      constructor
      · rintro (⟨p, ⟨hp, -⟩, rfl⟩ | rfl)
        · exact .inl ⟨p, hp, rfl⟩
        · exact .inr rfl
      · rintro (⟨p, hp, rfl⟩ | rfl)
        · by_cases hk : p.1 = k'
          · exact .inr hk
          · exact .inl ⟨p, ⟨hp, hk⟩, rfl⟩
        · exact .inr rfl

/-- Nothing is replaced where the keys differ already. -/
theorem items_ofList {l : List (κ × β)} (h : (l.map Prod.fst).Nodup) : (ofList l).items = l := by
  induction l using List.reverseRecOn with
  | nil => rfl
  | append_singleton l p ih =>
      rw [List.map_append, List.nodup_append] at h
      rw [ofList_concat, items_set, ih h.1, List.filter_eq_self.mpr]
      intro q hq
      rw [decide_eq_true_eq]
      exact h.2.2 q.1 (List.mem_map_of_mem hq) p.1 (by simp)

theorem length_ofList (l : List (κ × β)) :
    (ofList l).items.length = (l.map Prod.fst).dedup.length := by
  have hperm : (ofList l).keys.Perm (l.map Prod.fst).dedup := by
    refine (List.perm_ext_iff_of_nodup (ofList l).nodup (List.nodup_dedup _)).mpr fun k => ?_
    rw [List.mem_dedup]
    exact mem_keys_ofList
  rw [← hperm.length_eq, keys, List.length_map]

end Dict

end Smalltable
