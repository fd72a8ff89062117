/-! Identifiers of documents and of the virtual documents made from them. -/
namespace TemplateProjection

/-- A document, or its virtual counterpart: both have the same index. -/
structure DocumentId where
  index : Nat
  isVirtual : Bool
deriving DecidableEq, Repr

namespace DocumentId

/-- Indices have 31 bits; higher bits are dropped. -/
def ofNat (n : Nat) : DocumentId := ⟨n % 0x80000000, false⟩

def virtual (id : DocumentId) : DocumentId := ⟨id.index, true⟩

/-- The document itself, also for a virtual counterpart. -/
def original (id : DocumentId) : DocumentId := ⟨id.index, false⟩

def render (id : DocumentId) : String :=
  (if id.isVirtual then "virtual#" else "doc#") ++ id.index.repr

def describe (id : DocumentId) : String :=
  (if id.isVirtual then "DocumentId(virtual " else "DocumentId(") ++ id.index.repr ++ ")"

@[simp]
theorem original_virtual (id : DocumentId) : id.virtual.original = id.original := rfl

@[simp]
theorem original_original (id : DocumentId) : id.original.original = id.original := rfl

end DocumentId

end TemplateProjection
