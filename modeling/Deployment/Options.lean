/-!
# Options of a project

How a project is compiled, as its descriptor says.
-/

namespace Deployment

/-- How a project is compiled. -/
structure CompileOptions where
  /-- Go on after severe diagnostics, and make the best of what there is. -/
  flexible : Bool
  /-- The project is a fragment for other applications: what only a whole application must
      have is not asked of it. -/
  recipe : Bool
deriving DecidableEq, Inhabited

namespace CompileOptions

/-- A whole application, compiled strictly. -/
def strict : CompileOptions := ⟨false, false⟩

/-- A whole application, compiled flexibly. -/
def lenient : CompileOptions := ⟨true, false⟩

end CompileOptions

end Deployment
