import X86.Proofs.Readiness
import X86.Proofs.Table

/-!
# What a form tells about its operation

The shape of an instruction form tells how many operands its operation has, and which of them are
read and which are written.

* `Kind.isSource`, `Rows.sources_eq`, `Rows.destinations_eq`: the positions of a form that are only
  read, and those that are written;
* `Table.arity_of_build`: an entry has as many operands as its operation;
* **`Table.mem_reads_iff`**, **`Table.mem_targets_iff`**: shapes and operations.
-/

namespace X86

/-- Whether an operand in a position of this kind is only read. -/
def Kind.isSource : Kind → Bool
  | r | m | i => true
  | rw | mw => false

namespace Rows

theorem length_shape : ∀ r ∈ Rows.all, r.shape.length = r.op.arity := by
  decide +kernel

theorem sources_eq : ∀ r ∈ Rows.all,
    (List.range r.op.arity).filter (fun k => r.shape[k]?.any Kind.isSource) = r.op.reads := by
  decide +kernel

theorem destinations_eq : ∀ r ∈ Rows.all,
    (List.range r.op.arity).filter (fun k => r.shape[k]?.any fun κ => !κ.isSource) =
      r.op.targets := by
  decide +kernel

theorem mem_filter_iff {r : Row} (h : r ∈ Rows.all) {p : Kind → Bool} {k : Nat} :
    k ∈ (List.range r.op.arity).filter (fun k => r.shape[k]?.any p) ↔
      ∃ κ, r.shape[k]? = some κ ∧ p κ := by
  rw [List.mem_filter, List.mem_range, ← length_shape r h, Option.any_eq_true]
  refine ⟨And.right, fun hk => ⟨?_, hk⟩⟩
  obtain ⟨κ, hκ, -⟩ := hk
  exact (List.getElem?_eq_some_iff.mp hκ).1

end Rows

namespace Table

variable {t : Table} {o : Options} {name : String} {e : Entry}

variable (h : build Rows.all o = .ok t) (hg : t.get? name = some e)

include h hg

theorem arity_of_build : e.shape.length = e.op.arity :=
  of_rows (P := fun op s _ => s.length = op.arity) (fun r hr _ _ => Rows.length_shape r hr) h hg

/-- **The operands that an entry reads** are those in its read-only positions. -/
theorem mem_reads_iff (k : Nat) :
    k ∈ e.op.reads ↔ ∃ κ, e.shape[k]? = some κ ∧ κ.isSource :=
  of_rows (P := fun op s _ => k ∈ op.reads ↔ ∃ κ, s[k]? = some κ ∧ κ.isSource)
    (fun r hr _ _ => by rw [← Rows.sources_eq r hr, Rows.mem_filter_iff hr]) h hg

/-- **The operands that an entry writes** are those in its writable positions. -/
theorem mem_targets_iff (k : Nat) :
    k ∈ e.op.targets ↔ e.shape[k]? = some .rw ∨ e.shape[k]? = some .mw := by
  refine of_rows (P := fun op s _ => k ∈ op.targets ↔ s[k]? = some .rw ∨ s[k]? = some .mw)
    (fun r hr _ _ => ?_) h hg
  rw [← Rows.destinations_eq r hr, Rows.mem_filter_iff hr]
  cases r.shape[k]? with
  | none => simp
  | some κ => cases κ <;> simp [Kind.isSource]

end Table

end X86
