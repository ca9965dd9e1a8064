/-!
# Lists without repetition

What is added goes to the end, unless it is there.
-/

namespace LoopClosure

variable {α : Type} [DecidableEq α]

def appendNew (as : List α) (a : α) : List α := if a ∈ as then as else as ++ [a]

@[simp] theorem mem_appendNew {as : List α} {a b : α} : b ∈ appendNew as a ↔ b ∈ as ∨ b = a := by
  unfold appendNew
  split <;> simp_all

theorem nodup_appendNew {as : List α} (h : as.Nodup) (a : α) : (appendNew as a).Nodup := by
  unfold appendNew
  split
  · exact h
  · next ha =>
    refine List.nodup_append.2 ⟨h, by simp, fun b hb c hc => ?_⟩
    rintro rfl
    exact ha (List.mem_singleton.1 hc ▸ hb)

theorem mem_foldl_appendNew {as bs : List α} {a : α} :
    a ∈ bs.foldl appendNew as ↔ a ∈ as ∨ a ∈ bs := by
  induction bs generalizing as with
  | nil => simp
  | cons b bs ih => rw [List.foldl_cons, ih, mem_appendNew, List.mem_cons, or_assoc]

theorem nodup_foldl_appendNew {as : List α} (h : as.Nodup)
    (bs : List α) : (bs.foldl appendNew as).Nodup := by
  induction bs generalizing as with
  | nil => exact h
  | cons b bs ih => exact ih (nodup_appendNew h b)

end LoopClosure
