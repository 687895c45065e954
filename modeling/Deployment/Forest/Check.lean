import Deployment.Forest
import Deployment.SourceMap
import Deployment.TypeGraph.Placement

/-!
# Checks of a forest against its type graph

An instance must be placed where its component may be: at a root if its component is a root
of the graph, below an instance whose component has it as an effective child. The variables
that it gives values to should be exported by its component.

* `Forest.check`: everything found, instance by instance. Instances of unknown components
  are passed over.
-/

namespace Deployment.Forest

variable (f : Forest) (g : TypeGraph)

/-- Whether an instance is where its component may be. -/
def isWellPlaced (id : Nat) (body : Instance) : Bool :=
  match f.parent? id with
  | none => g.roots.contains body.component
  | some parent =>
    (f.get? parent).any fun above => (g.effectiveChildren above.component).contains body.component

/-- What is wrong with an instance. -/
def checkInstance (id : Nat) (body : Instance) : List Finding :=
  let subject := Subject.instanceAt (f.path id)
  (if f.isWellPlaced g id body then []
    else [.about subject .invalidInstanceParent [⟨.component, body.component⟩]]) ++
  (body.overrides.keys.filter fun key => !g.exportsVariable body.component key).map fun key =>
    .about subject .magicInstanceVariable [⟨.variable, key⟩]

/-- What is wrong with the instances of a forest. -/
def check : List Finding :=
  f.all.flatMap fun id =>
    match f.get? id with
    | none => []
    | some body => if g.components.contains body.component then f.checkInstance g id body else []

end Deployment.Forest
