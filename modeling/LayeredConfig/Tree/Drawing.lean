import LayeredConfig.Tree.Basic

/-!
# Drawing a tree

One line for each node, indented by the lines that lead to it.
-/

namespace LayeredConfig

/-- The lines of the trees of a forest, each below an indentation. -/
def Forest.drawing (indent : String) : Forest Entry → List String
  | .nil => []
  | .cons e cs ss =>
    let last := ss.isEmpty
    let line := indent ++ (if last then "└── " else "├── ") ++ e.data.describe
    line :: (cs.drawing (indent ++ (if last then "    " else "│   ")) ++ ss.drawing indent)

namespace Tree

/-- The drawing of a tree: the key of its root, then one line for each node below. -/
def drawing (t : Tree) : String :=
  let key := t.top.label.data.key
  let title := if key.isEmpty then "(root)" else key
  String.join ((title :: t.top.children.drawing "").map (· ++ "\n"))

end Tree

end LayeredConfig
