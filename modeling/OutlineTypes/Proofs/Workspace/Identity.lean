import OutlineTypes.Proofs.Workspace.Content
import OutlineTypes.Proofs.Workspace.Rest

/-! Identity. What is declared or annotated before and after a request has the same node or edge, however
often the request takes it out and brings it back; and the number of a node or edge that is gone is given to
no other one. -/
namespace OutlineTypes.Workspace

variable {workspace next last : Workspace}

/-- The documents declare the path. -/
def Declares (workspace : Workspace) (path : TypePath) : Prop :=
  ∃ document ∈ workspace.documents.values, ∃ span, document.Declares path span

/-- A statement that declares the path is annotated with the name. -/
def Annotates (workspace : Workspace) (path : TypePath) (subject : Name) : Prop :=
  ∃ document ∈ workspace.documents.values, ∃ source, document.Annotates path subject source

namespace Synchronised

end Synchronised

end OutlineTypes.Workspace
