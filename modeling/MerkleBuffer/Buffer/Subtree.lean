/-
The staged nodes below a root, children before parents.

A walk over the staged nodes visits each once and stops at hashes that are not
staged. It keeps its own stack, so long chains do no harm; a node comes out
when the walk returns from its children.
-/
import MerkleBuffer.Buffer.Basic

namespace MerkleBuffer.Buffer

/-- A step that a walk has still to take: go to a node, or return from one. -/
inductive Step where
  | enter (h : Hash)
  | leave (h : Hash) (e : Staged)

/-- The nodes that the steps lead to, where `unseen` are those not visited yet. -/
def postorder (unseen : Table) (steps : List Step) : List (Hash × Staged) :=
  match steps with
  | [] => []
  | .leave h e :: rest => (h, e) :: postorder unseen rest
  | .enter h :: rest =>
    match he : unseen[h]? with
    | none => postorder unseen rest
    | some e => postorder (unseen.erase h) (e.children.map .enter ++ .leave h e :: rest)
termination_by (unseen.size, steps.length)
decreasing_by
  · exact Prod.Lex.right _ (by simp)
  · exact Prod.Lex.right _ (by simp)
  · have hlt := unseen.size_erase he
    exact Prod.Lex.left _ _ (by omega)

/-- The staged nodes that can be reached from `root`, each after its children. -/
def subtree (b : Buffer) (root : Hash) : List (Hash × Staged) := postorder b.table [.enter root]

end MerkleBuffer.Buffer
