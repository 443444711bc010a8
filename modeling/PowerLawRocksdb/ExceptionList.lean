import PowerLawRocksdb.SpaceSaving
import Mathlib.Data.List.AList

/-!
# Exception lists

The partitioner tells the coordinator which keys leave their home instance as a
finite map from keys to instance numbers. It is built with `emplace`, which keeps
the entry that a key already has.
-/
namespace PowerLawRocksdb
open SpaceSaving

/-- The map `key_to_instance`, whose entries are in some order of iteration. -/
abbrev ExceptionList := AList (fun _ : Key => ℤ)

namespace ExceptionList

def emplace (e : ExceptionList) (key : Key) (inst : ℤ) : ExceptionList :=
  if key ∈ e then e else e.insert key inst

@[simp] theorem mem_emplace {e : ExceptionList} {key x : Key} {inst : ℤ} :
    x ∈ e.emplace key inst ↔ x = key ∨ x ∈ e := by
  rw [emplace]
  split_ifs with h
  · exact ⟨Or.inr, fun hx => hx.elim (fun he => he ▸ h) id⟩
  · exact AList.mem_insert e

theorem emplace_of_mem {e : ExceptionList} {key : Key} (inst : ℤ) (h : key ∈ e) :
    e.emplace key inst = e := if_pos h

theorem lookup_emplace_self {e : ExceptionList} {key : Key} (inst : ℤ) (h : key ∉ e) :
    (e.emplace key inst).lookup key = some inst := by
  rw [emplace, if_neg h, AList.lookup_insert]

theorem lookup_emplace_ne {e : ExceptionList} {key x : Key} (inst : ℤ) (hx : x ≠ key) :
    (e.emplace key inst).lookup x = e.lookup x := by
  rw [emplace]
  split_ifs
  · rfl
  · exact AList.lookup_insert_ne hx

end ExceptionList

end PowerLawRocksdb
