import Deployment.Proofs.Forest.Replication

/-!
# Forests made by operations

The operations of a forest check nothing. Here they are used as they are meant to be (`Step`): on
instances of the forest, and giving a place only to an instance that has none, which is not put
below itself. Parts of a forest may then be made in any order, before they get their place.

* `Built.treeShaped`: whatever comes of the empty forest in this way is tree-shaped;
* `Built.walks_exact`: the walks through it come to an end, and list what they should, once.
-/

namespace Deployment.Forest

/-- An operation on instances of a forest, with the forest that results. -/
inductive Step (f : Forest) : Forest → Prop
  | insert (body : Instance) : Step f (f.insert body)
  | replicate {id : Nat} : id < f.nodes.size → Step f (f.replicate id).1
  | modifyInstance {id : Nat} (change : Instance → Instance) :
      id < f.nodes.size → Step f (f.modifyInstance id change)
  | attach {parent child : Nat} : parent < f.nodes.size → f.Free child →
      parent ∉ f.hierarchy child → Step f (f.attach parent child)
  | addRoot {id : Nat} : f.Free id → Step f (f.addRoot id)

/-- What comes of the empty forest by operations. -/
def Built (f : Forest) : Prop := Relation.ReflTransGen Step .empty f

/-- The walks through a forest come to an end and are exact. -/
structure Navigable (f : Forest) : Prop where
  path : ∀ id < f.nodes.size, ∃ names, f.Climbs (some id) names ∧ f.path id = pathOf names
  hierarchy : ∀ id < f.nodes.size, f.Visits [id] (f.hierarchy id)
  nodup_hierarchy : ∀ id < f.nodes.size, (f.hierarchy id).Nodup
  mem_hierarchy : ∀ id < f.nodes.size, ∀ below,
    below ∈ f.hierarchy id ↔ Relation.ReflTransGen f.HasParent below id
  nodup_all : f.all.Nodup
  mem_all : ∀ id, id ∈ f.all ↔ ∃ root ∈ f.roots, Relation.ReflTransGen f.HasParent id root

variable {f g : Forest}

theorem TreeShaped.navigable (h : f.TreeShaped) : f.Navigable where
  path _ hid := h.climbs_path hid
  hierarchy _ hid := h.visits_hierarchy hid
  nodup_hierarchy id _ := h.nodup_hierarchy id
  mem_hierarchy _ hid _ := h.mem_hierarchy_iff hid
  nodup_all := h.nodup_all
  mem_all _ := h.mem_all_iff_exists

/-- An operation keeps a forest tree-shaped. -/
theorem Step.treeShaped (h : Step f g) (hf : f.TreeShaped) : g.TreeShaped := by
  cases h with
  | insert body => exact hf.insert body
  | replicate hid => exact hf.withCopies_treeShaped hid
  | modifyInstance change _ => exact hf.modifyInstance _ change
  | attach hparent hfree hbelow => exact hf.attach hfree hparent hbelow
  | addRoot hfree => exact hf.addRoot hfree

/-- Whatever is made by operations is tree-shaped. -/
theorem Built.treeShaped (h : f.Built) : f.TreeShaped := by
  induction h with
  | refl => exact treeShaped_empty
  | tail _ hstep ih => exact hstep.treeShaped ih

/-- A forest made by operations is tree-shaped, and the walks through it are exact. -/
theorem Built.walks_exact (h : f.Built) : f.TreeShaped ∧ f.Navigable :=
  ⟨h.treeShaped, h.treeShaped.navigable⟩

/-- A server with an application below it, before it runs on a machine. -/
def detached : Forest :=
  (((empty.insert (.named "app" "App")).insert (.named "vm" "VM")).insert
    (.named "server" "Server")).attach 2 0

/-- The server and a copy of it with another name on the machine. -/
def placed : Forest :=
  let f := ((detached.replicate 2).1.modifyInstance 3 fun i => { i with name := "spare" })
  ((f.attach 1 3).addRoot 1).attach 1 2

theorem Built.walks_exact_placed :
    placed.Built ∧ placed.TreeShaped ∧ placed.Navigable ∧ placed.all = [1, 3, 2, 4, 0] ∧
      placed.path 4 = "/vm/spare/app" := by
  have hdetached : detached.Built :=
    (((Relation.ReflTransGen.refl.tail (.insert _)).tail (.insert _)).tail (.insert _)).tail
      (.attach (by decide) (by decide) (by decide))
  have hplaced : placed.Built :=
    ((((hdetached.tail (.replicate (by decide))).tail (.modifyInstance _ (by decide))).tail
      (.attach (by decide) (by decide) (by decide))).tail (.addRoot (by decide))).tail
        (.attach (by decide) (by decide) (by decide))
  obtain ⟨hshape, hwalks⟩ := hplaced.walks_exact
  exact ⟨hplaced, hshape, hwalks, by decide, by decide⟩

end Deployment.Forest
