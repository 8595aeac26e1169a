import LoadOrder.Script.Branch
import LoadOrder.Script.Read
import LoadOrder.Proofs.Script.Tree
import LoadOrder.Proofs.Sorting
import LoadOrder.Proofs.Success

namespace LoadOrder.Script

def Element.ofNode (index : Nat) : Node → Element
  | .clause k code nodes =>
    .branch ⟨k, branchesOf 0 nodes, pairsOf 0 nodes, valuesOf 0 nodes, code, index⟩
  | .pair k v code => .pair ⟨k, v, code, index⟩
  | .value v code => .value ⟨v, code, index⟩

def elementsOf (index : Nat) : List Node → List Element
  | [] => []
  | node :: rest => .ofNode index node :: elementsOf (index + 1) rest

@[simp] theorem index_ofNode (index : Nat) (node : Node) :
    (Element.ofNode index node).index = index := by
  cases node <;> rfl

@[simp] theorem length_elementsOf (index : Nat) (nodes : List Node) :
    (elementsOf index nodes).length = nodes.length := by
  induction nodes generalizing index with
  | nil => rfl
  | cons node rest ih => rw [elementsOf, List.length_cons, ih, List.length_cons]

theorem le_index_of_mem {index : Nat} {nodes : List Node} {e : Element}
    (h : e ∈ elementsOf index nodes) : index ≤ e.index := by
  induction nodes generalizing index with
  | nil => cases h
  | cons node rest ih =>
    rw [elementsOf, List.mem_cons] at h
    rcases h with heq | h
    · exact Nat.le_of_eq (by rw [heq, index_ofNode])
    · exact Nat.le_of_succ_le (ih h)

theorem pairwise_elementsOf (index : Nat) (nodes : List Node) :
    (elementsOf index nodes).Pairwise fun a b => a.index < b.index := by
  induction nodes generalizing index with
  | nil => exact .nil
  | cons node rest ih =>
    refine .cons (fun e he => ?_) (ih (index + 1))
    rw [index_ofNode]
    exact le_index_of_mem he

theorem perm_elementsOf (index : Nat) (nodes : List Node) :
    ((branchesOf index nodes).map Element.branch ++ (pairsOf index nodes).map Element.pair ++
      (valuesOf index nodes).map Element.value).Perm (elementsOf index nodes) := by
  induction nodes generalizing index with
  | nil => exact .refl _
  | cons node rest ih =>
    specialize ih (index + 1)
    -- the element is the first of its kind, and the other kinds begin behind it
    cases node with
    | clause key code children => exact ih.cons _
    | pair key value code =>
      simp only [branchesOf, Node.branch?, pairsOf, valuesOf, elementsOf, Element.ofNode,
        List.map_cons, List.append_assoc] at ih ⊢
      exact List.perm_middle.trans (ih.cons _)
    | value value code =>
      simp only [branchesOf, Node.branch?, pairsOf, valuesOf, elementsOf, Element.ofNode,
        List.map_cons]
      exact List.perm_middle.trans (ih.cons _)

section Branch

variable (key : String) (code : Option String) (index : Nat) (nodes : List Node)

/-- Elements that are kept apart by kind go together again by their places. -/
theorem children_eq_elementsOf :
    Branch.children ⟨key, branchesOf 0 nodes, pairsOf 0 nodes, valuesOf 0 nodes, code, index⟩ =
      elementsOf 0 nodes :=
  mergeSort_eq_of_perm (pairwise_elementsOf 0 nodes) (perm_elementsOf 0 nodes)

theorem childCount_eq_length :
    Branch.childCount ⟨key, branchesOf 0 nodes, pairsOf 0 nodes, valuesOf 0 nodes, code, index⟩ =
      nodes.length := by
  simpa [Branch.childCount, Nat.add_assoc] using (perm_elementsOf 0 nodes).length_eq

end Branch

/-- What an element has of its statement's code, the file being at level one. -/
def codeAt (level : Nat) (s : Statement) : Option String :=
  if level = 2 ∨ level = 3 then some s.code else none

mutual

/-- The element at a place is the one for a statement: of its kind, with its key and its value
trimmed, and a clause has one element for every statement of its own. -/
inductive Mirrors : (level index : Nat) → Statement → Element → Prop
  | branch {level index k body p b}
      (key : b.key = (k.map fun k => Text.trimmed k.key.source).getD "")
      (code : b.code = codeAt level (.clause k body p)) (place : b.index = index)
      (count : b.childCount = body.length) (children : MirrorsAll (level + 1) 0 body b.children) :
    Mirrors level index (.clause k body p) (.branch b)
  | pair {level index k a p} :
    Mirrors level index (.leaf (some k) a p) (.pair ⟨Text.trimmed k.key.source,
      Text.trimmed a.text, codeAt level (.leaf (some k) a p), index⟩)
  | value {level index a p} :
    Mirrors level index (.leaf none a p)
      (.value ⟨Text.trimmed a.text, codeAt level (.leaf none a p), index⟩)

/-- The elements from a place on are the ones for some statements, one after the other. -/
inductive MirrorsAll : (level index : Nat) → List Statement → List Element → Prop
  | nil {level index} : MirrorsAll level index [] []
  | cons {level index s e statements elements} (first : Mirrors level index s e)
      (rest : MirrorsAll level (index + 1) statements elements) :
    MirrorsAll level index (s :: statements) (e :: elements)

end

theorem codeAt_eq (level : Nat) (s : Statement) :
    (if keepsCode level then some s.code else none) = codeAt level s := by
  simp [codeAt, keepsCode]

mutual

theorem mirrors_ofStatement (level index : Nat) (s : Statement) :
    Mirrors level index s (.ofNode index (.ofStatement level s)) := by
  match s with
  | .clause k body p =>
    rw [Node.ofStatement, codeAt_eq, Element.ofNode]
    refine .branch ?_ rfl rfl ?_ ?_
    · cases k <;> rfl
    · rw [childCount_eq_length, nodesOf_eq_map, List.length_map]
    · rw [children_eq_elementsOf]
      exact mirrorsAll_nodesOf (level + 1) 0 body
  | .leaf (some k) a p =>
    rw [Node.ofStatement, codeAt_eq, Element.ofNode]
    exact .pair
  | .leaf none a p =>
    rw [Node.ofStatement, codeAt_eq, Element.ofNode]
    exact .value

theorem mirrorsAll_nodesOf (level index : Nat) (statements : List Statement) :
    MirrorsAll level index statements (elementsOf index (nodesOf level statements)) := by
  match statements with
  | [] => exact .nil
  | s :: rest =>
    exact .cons (mirrors_ofStatement level index s) (mirrorsAll_nodesOf level (index + 1) rest)

end

/-- The tree of a script has one element for every statement, clause by clause. -/
theorem children_mirror_statements (path : String) {lines : List String}
    {statements : List Statement} (h : parse (Text.join "\n" lines) = .ok statements) :
    ∃ file, File.ofLines path lines = .ok file ∧ file.branch.code = none ∧
      file.branch.childCount = statements.length ∧
      MirrorsAll 2 0 statements file.branch.children := by
  refine ⟨⟨_, nodesOf 2 statements⟩, by rw [File.ofLines, h]; rfl, rfl, ?_, ?_⟩
  · rw [File.branch, childCount_eq_length, nodesOf_eq_map, List.length_map]
  · rw [File.branch, children_eq_elementsOf]
    exact mirrorsAll_nodesOf 2 0 statements

def threeDeep : List String := ["a = \x7b b = \x7b \x7b \" d \" = 1 \x7d \x7d \x7d", "c", "e < 5"]

theorem children_mirror_statements_threeDeep :
    ∃ statements, parse (Text.join "\n" threeDeep) = .ok statements ∧
      statements.map (·.tree.nesting) = [3, 0, 0] ∧
      ∃ file, File.ofLines "common/t/00.txt" threeDeep = .ok file ∧ file.branch.code = none ∧
        file.branch.childCount = statements.length ∧
        MirrorsAll 2 0 statements file.branch.children := by
  have h : (parse (Text.join "\n" threeDeep)).toOption.map (·.map (·.tree.nesting)) =
      some [3, 0, 0] := by
    decide +kernel
  obtain ⟨statements, hs, hnesting⟩ := Option.map_eq_some_iff.mp h
  have hok := eq_ok_of_toOption hs
  exact ⟨statements, hok, hnesting, children_mirror_statements "common/t/00.txt" hok⟩

end LoadOrder.Script
