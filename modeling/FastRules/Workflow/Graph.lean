import FastRules.Foundations.Dot
import FastRules.Workflow.Validate

/-!
# The dependency graph of a workflow

`Workflow::toGraph` writes the rules of a workflow as a DOT digraph. `Workflow.graph` is the digraph
that is meant. The text reads as that digraph if and only if no rule is inactive, no rule has an
expression, and each description can stand between quotes (`toGraph_reads_iff`): the snippet of an
expression stands between quotes that close the label, and the attributes of an inactive rule are
followed by the quote that was to close it.
-/

open Dot

namespace FastRules

/-! ### `Workflow::toGraph` -/

/-- The name of the node of a rule. -/
def nodeName (id : Id) : String :=
  "rule_" ++ toString id

/-- The beginning of a label: what it is of, and the description, if there is one. -/
def labelText (kind : String) (id : Int) (description : String) : String :=
  kind ++ toString id ++ if description ≠ "" then "\\n" ++ description else ""

/-- The expression in a label. -/
def expressionSnippet (expression : String) : String :=
  if expression ≠ "" then
    let expr :=
      if 30 < expression.length then String.ofList (expression.toList.take 27) ++ "..."
      else expression
    "\\n" ++ "[" ++ "\"" ++ expr ++ " " ++ "\"" ++ "]"
  else ""

/-- What is written for a rule between the quotes of its label. -/
def ruleLabel (rule : Rule) : String :=
  labelText "Rule " rule.id rule.description ++ expressionSnippet rule.expression

def ruleNode (rule : Rule) : String :=
  "  \"" ++ nodeName rule.id ++ "\" [label=\"" ++ ruleLabel rule ++
    (if !rule.isActive then "\", fillcolor=gray, fontcolor=white" else "") ++ "\"];\n"

/-- The id of the rule that a rule of the tree depends on: of the first rule of the workflow that
has the name, where `-1` stands for none. -/
def parentId (rules : List Rule) (name : String) : Id :=
  ((rules.find? fun r ↦ r.name = name).map fun r ↦ r.id).getD (-1)

def ruleDependency (rules : List Rule) (rule : Rule) : String :=
  match rule.dependsOnRuleName with
  | some name =>
    if parentId rules name ≠ -1 then
      "  \"" ++ nodeName (parentId rules name) ++ "\" -> \"" ++ nodeName rule.id ++ "\"" ++
        " [color=red, penwidth=2.0, label=\"depends on\"];\n"
    else ""
  | none => ""

/-- The line of a child in the group of the children. -/
def childLine (child : Rule) : String :=
  "    \"" ++ nodeName child.id ++ "\"\n"

/-- The edges to the children of a rule. -/
def ruleChildren (rule : Rule) : String :=
  if rule.childRules.isEmpty then ""
  else
    "  \"" ++ nodeName rule.id ++ "\" -> \x7b\n" ++
      String.join (rule.childRules.map childLine) ++
      "  \x7d [style=dashed, label=\"parent/child\"];\n"

/-- What is written for a rule before its children are looked at. -/
def ruleText (rules : List Rule) (rule : Rule) : String :=
  ruleNode rule ++ ruleDependency rules rule ++ ruleChildren rule

mutual

/-- What `collectRules` writes for a rule. -/
def collectRule (rules : List Rule) : Rule → String
  | ⟨fields, children⟩ => ruleText rules ⟨fields, children⟩ ++ collectRules rules children

def collectRules (rules : List Rule) : List Rule → String
  | [] => ""
  | rule :: ruleList => collectRule rules rule ++ collectRules rules ruleList

end

def graphHeader : String :=
  "digraph Workflow \x7b\n" ++
  "  rankdir=TB;\n" ++
  "  node [shape=box, style=filled, fillcolor=lightblue];\n" ++
  "  edge [arrowhead=vee];\n\n"

def graphTitle (w : Workflow) : String :=
  "  label=\"" ++ labelText "Workflow " w.id w.description ++ "\";\n" ++ "  labelloc=t;\n\n"

/-- `Workflow::toGraph`. -/
def Workflow.toGraph (w : Workflow) : String :=
  graphHeader ++ graphTitle w ++ collectRules w.rules w.rules ++ "\x7d\n"

/-- The rules are written in the order of the tree. -/
theorem collectRules_eq (rules : List Rule) (ruleList : List Rule) :
    (collectRules rules ruleList).toList =
      (nodesOf ruleList).flatMap fun rule ↦ (ruleText rules rule).toList := by
  have hrule (rule : Rule) : (collectRule rules rule).toList =
      rule.nodes.flatMap fun rule ↦ (ruleText rules rule).toList := by
    induction rule using Rule.induction_children with
    | h rule ih =>
      obtain ⟨fields, children⟩ := rule
      have hchildren (cs : List Rule) (hcs : ∀ c ∈ cs, c ∈ children) :
          (collectRules rules cs).toList =
            (nodesOf cs).flatMap fun rule ↦ (ruleText rules rule).toList := by
        induction cs with
        | nil => rfl
        | cons c cs ihc =>
          obtain ⟨hc, hcs⟩ := List.forall_mem_cons.1 hcs
          rw [collectRules, String.toList_append, ih c hc, ihc hcs, nodesOf, List.flatMap_append]
      rw [collectRule, String.toList_append, hchildren children fun c hc ↦ hc, Rule.nodes,
        List.flatMap_cons]
  induction ruleList with
  | nil => rfl
  | cons rule ruleList ih =>
    rw [collectRules, String.toList_append, hrule, ih, nodesOf, List.flatMap_append]

/-! ### The digraph that is meant -/

def atom (text : String) : Ident :=
  .atom text.toList

def quotedIdent (text : String) : Ident :=
  .quoted text.toList

def nodeAttributes (rule : Rule) : List Attribute :=
  (atom "label", quotedIdent (ruleLabel rule)) ::
    if rule.isActive then []
    else [(atom "fillcolor", atom "gray"), (atom "fontcolor", atom "white")]

def dependencyStatements (rules : List Rule) (rule : Rule) : List Statement :=
  match rule.dependsOnRuleName with
  | some name =>
    if parentId rules name ≠ -1 then
      [.edge (quotedIdent (nodeName (parentId rules name))) (quotedIdent (nodeName rule.id))
        [(atom "color", atom "red"), (atom "penwidth", atom "2.0"),
          (atom "label", quotedIdent "depends on")]]
    else []
  | none => []

def childStatements (rule : Rule) : List Statement :=
  if rule.childRules.isEmpty then []
  else
    [.edges (quotedIdent (nodeName rule.id))
      (rule.childRules.map fun child ↦ quotedIdent (nodeName child.id))
      [(atom "style", atom "dashed"), (atom "label", quotedIdent "parent/child")]]

/-- A rule as statements: its node, and its edges. -/
def ruleStatements (rules : List Rule) (rule : Rule) : List Statement :=
  .node (quotedIdent (nodeName rule.id)) (nodeAttributes rule) ::
    (dependencyStatements rules rule ++ childStatements rule)

def headerStatements : List Statement :=
  [.assign (atom "rankdir") (atom "TB"),
    .defaults (atom "node") [(atom "shape", atom "box"), (atom "style", atom "filled"),
      (atom "fillcolor", atom "lightblue")],
    .defaults (atom "edge") [(atom "arrowhead", atom "vee")]]

def titleStatements (w : Workflow) : List Statement :=
  [.assign (atom "label") (quotedIdent (labelText "Workflow " w.id w.description)),
    .assign (atom "labelloc") (atom "t")]

/-- The digraph that `Workflow::toGraph` writes. Each label is what stands between the quotes that
are written for it. -/
def Workflow.graph (w : Workflow) : Digraph where
  name := atom "Workflow"
  statements :=
    headerStatements ++ titleStatements w ++ (nodesOf w.rules).flatMap (ruleStatements w.rules)

/-- The text of the graph reads as the digraph that is meant, whose brackets are balanced and which
has one node statement for each rule of the tree. -/
structure ReadsAsDigraph (w : Workflow) : Prop where
  reads : Lexes w.toGraph.toList w.graph.tokens
  balanced : Balanced w.graph.tokens
  nodes : w.graph.nodes =
    (nodesOf w.rules).map fun rule ↦ (quotedIdent (nodeName rule.id), nodeAttributes rule)

/-- The rule is active and without an expression, and its description can stand between quotes. -/
def PlainRule (rule : Rule) : Prop :=
  rule.isActive = true ∧ rule.expression = "" ∧ Quotable false rule.description.toList

/-! ### Reading the pieces -/

theorem plain_toString (n : Int) : ∀ c ∈ (toString n).toList, c ≠ '"' ∧ c ≠ '\\' := by
  refine fun c hc ↦ ⟨?_, ?_⟩
  · rintro rfl
    exact not_mem_toString (by decide) (by decide) n hc
  · rintro rfl
    exact not_mem_toString (by decide) (by decide) n hc

theorem quotable_nodeName (id : Id) : Quotable false (nodeName id).toList := by
  have hrule : Quotable false "rule_".toList := by decide
  rw [nodeName, String.toList_append, hrule.append_iff]
  exact quotable_of_plain (plain_toString id)

/-- A label is as quotable as the description in it. -/
theorem quotable_labelText {kind : String} (hkind : Quotable false kind.toList) (id : Int)
    (description : String) : Quotable false (labelText kind id description).toList ↔
      Quotable false description.toList := by
  rw [labelText, String.toList_append, String.toList_append, List.append_assoc, hkind.append_iff,
    (quotable_of_plain (plain_toString id)).append_iff]
  split_ifs with hempty
  · have hbreak : Quotable false "\\n".toList := by decide
    rw [String.toList_append, hbreak.append_iff]
  · rw [not_not.1 hempty]

/-- The quote before the snippet of an expression closes the label. -/
theorem quotable_ruleLabel (rule : Rule) : Quotable false (ruleLabel rule).toList ↔
    rule.expression = "" ∧ Quotable false rule.description.toList := by
  rw [ruleLabel]
  by_cases hempty : rule.expression = ""
  · rw [expressionSnippet, if_neg (not_not.2 hempty), String.append_empty,
      quotable_labelText (by decide), and_iff_right hempty]
  · refine iff_of_false ?_ fun h ↦ hempty h.1
    rw [expressionSnippet, if_pos hempty]
    simp only [String.toList_append, List.append_assoc]
    rw [← List.append_assoc]
    exact not_quotable (c := '[') (by decide) _ _ false

theorem readsIf_nodeName (id : Id) :
    ReadsIf ('"' :: ((nodeName id).toList ++ ['"'])) [.ident (quotedIdent (nodeName id))] True :=
  (readsIf_quoted _).congr (iff_true_intro (quotable_nodeName id))

theorem readsIf_ruleNode (rule : Rule) :
    ReadsIf (ruleNode rule).toList
      (Statement.node (quotedIdent (nodeName rule.id)) (nodeAttributes rule)).tokens
      (PlainRule rule) := by
  have hopen : ReadsIf "  ".toList [] True := readsIf_of_scan (by decide : scan 3 _ = _)
  have hlabel : ReadsIf " [label=".toList [.symbol '[', .ident (atom "label"), .symbol '='] True :=
    readsIf_of_scan (by decide : scan 5 _ = _)
  have hstart := ((hopen.append (readsIf_nodeName rule.id)).append hlabel).append
    (readsIf_quoted (ruleLabel rule).toList)
  cases hactive : rule.isActive with
  | true =>
    have hclose : ReadsIf "];\n".toList [.symbol ']', .symbol ';'] True :=
      readsIf_of_scan (by decide : scan 4 _ = _)
    have htext : (ruleNode rule).toList = "  ".toList ++
        ('"' :: ((nodeName rule.id).toList ++ ['"'])) ++ " [label=".toList ++
        ('"' :: ((ruleLabel rule).toList ++ ['"'])) ++ "];\n".toList := by
      simp [ruleNode, hactive]
    rw [htext, nodeAttributes, hactive]
    refine (hstart.append hclose).congr ?_
    simp [PlainRule, hactive, quotable_ruleLabel]
  | false =>
    -- the quote behind the attributes is where the list is to end
    have hcolors : ReadsIf ", fillcolor=gray, fontcolor=".toList
        [.symbol ',', .ident (atom "fillcolor"), .symbol '=', .ident (atom "gray"), .symbol ',',
          .ident (atom "fontcolor"), .symbol '='] True :=
      readsIf_of_scan (by decide : scan 20 _ = _)
    have hclose : ReadsIf "white\"];\n".toList
        [.ident (atom "white"), .symbol ']', .symbol ';'] False := by
      intro rest tail
      have hnext : nextToken ("white\"];\n".toList ++ rest) =
          some (.ident (atom "white"), "\"];\n".toList ++ rest) := rfl
      rw [lexes_token_iff hnext, false_and, iff_false]
      rintro ⟨tail', heq, h⟩
      cases heq
      exact not_lexes_of_quote (fun _ ht ↦ by cases ht) h
    have htext : (ruleNode rule).toList = "  ".toList ++
        ('"' :: ((nodeName rule.id).toList ++ ['"'])) ++ " [label=".toList ++
        ('"' :: ((ruleLabel rule).toList ++ ['"'])) ++ ", fillcolor=gray, fontcolor=".toList ++
        "white\"];\n".toList := by
      simp [ruleNode, hactive]
    rw [htext, nodeAttributes, hactive]
    refine ((hstart.append hcolors).append hclose).congr ?_
    simp [PlainRule, hactive]

theorem readsIf_ruleDependency (rules : List Rule) (rule : Rule) :
    ReadsIf (ruleDependency rules rule).toList
      ((dependencyStatements rules rule).flatMap Statement.tokens) True := by
  rw [ruleDependency, dependencyStatements]
  split
  · rename_i name hname
    split_ifs with hparent
    · have hopen : ReadsIf "  ".toList [] True := readsIf_of_scan (by decide : scan 3 _ = _)
      have harrow : ReadsIf " -> ".toList [.edge true] True :=
        readsIf_of_scan (by decide : scan 5 _ = _)
      have hlist : ReadsIf " [color=red, penwidth=2.0, label=\"depends on\"];\n".toList
          (attributeTokens [(atom "color", atom "red"), (atom "penwidth", atom "2.0"),
            (atom "label", quotedIdent "depends on")] ++ [.symbol ';']) True :=
        readsIf_of_scan (by decide : scan 25 _ = _)
      have htext : ("  \"" ++ nodeName (parentId rules name) ++ "\" -> \"" ++ nodeName rule.id ++
          "\"" ++ " [color=red, penwidth=2.0, label=\"depends on\"];\n").toList =
          "  ".toList ++ ('"' :: ((nodeName (parentId rules name)).toList ++ ['"'])) ++
            " -> ".toList ++ ('"' :: ((nodeName rule.id).toList ++ ['"'])) ++
            " [color=red, penwidth=2.0, label=\"depends on\"];\n".toList := by
        simp
      rw [htext]
      exact ((((hopen.append (readsIf_nodeName _)).append harrow).append
        (readsIf_nodeName _)).append hlist).congr (by simp)
    · exact ReadsIf.nil
  · exact ReadsIf.nil

theorem readsIf_childLine (child : Rule) :
    ReadsIf (childLine child).toList [.ident (quotedIdent (nodeName child.id))] True := by
  have hindent : ReadsIf "    ".toList [] True := readsIf_of_scan (by decide : scan 5 _ = _)
  have hend : ReadsIf "\n".toList [] True := readsIf_of_scan (by decide : scan 2 _ = _)
  have htext : (childLine child).toList =
      "    ".toList ++ ('"' :: ((nodeName child.id).toList ++ ['"'])) ++ "\n".toList := by
    simp [childLine]
  rw [htext]
  exact ((hindent.append (readsIf_nodeName child.id)).append hend).congr (by simp)

theorem readsIf_ruleChildren (rule : Rule) :
    ReadsIf (ruleChildren rule).toList ((childStatements rule).flatMap Statement.tokens) True := by
  rw [ruleChildren, childStatements]
  split_ifs with hempty
  · exact ReadsIf.nil
  · have hopen : ReadsIf "  ".toList [] True := readsIf_of_scan (by decide : scan 3 _ = _)
    have hbrace : ReadsIf " -> \x7b\n".toList [.edge true, .symbol '{'] True :=
      readsIf_of_scan (by decide : scan 6 _ = _)
    have hchildren : ReadsIf (rule.childRules.flatMap fun child ↦ (childLine child).toList)
        (rule.childRules.flatMap fun child ↦ [.ident (quotedIdent (nodeName child.id))])
        (∀ child ∈ rule.childRules, True) :=
      ReadsIf.flatMap fun child _ ↦ readsIf_childLine child
    have hlist : ReadsIf "  \x7d [style=dashed, label=\"parent/child\"];\n".toList
        (.symbol '}' :: attributeTokens [(atom "style", atom "dashed"),
          (atom "label", quotedIdent "parent/child")] ++ [.symbol ';']) True :=
      readsIf_of_scan (by decide : scan 25 _ = _)
    have htext : ("  \"" ++ nodeName rule.id ++ "\" -> \x7b\n" ++
        String.join (rule.childRules.map childLine) ++
        "  \x7d [style=dashed, label=\"parent/child\"];\n").toList =
        "  ".toList ++ ('"' :: ((nodeName rule.id).toList ++ ['"'])) ++ " -> \x7b\n".toList ++
          (rule.childRules.flatMap fun child ↦ (childLine child).toList) ++
          "  \x7d [style=dashed, label=\"parent/child\"];\n".toList := by
      simp [List.flatMap_def, Function.comp_def]
    rw [htext]
    have hreads := (((hopen.append (readsIf_nodeName rule.id)).append hbrace).append
      hchildren).append hlist
    have htokens : (Statement.edges (quotedIdent (nodeName rule.id))
        (rule.childRules.map fun child ↦ quotedIdent (nodeName child.id))
        [(atom "style", atom "dashed"), (atom "label", quotedIdent "parent/child")]).tokens =
        [.ident (quotedIdent (nodeName rule.id))] ++ [.edge true, .symbol '{'] ++
          (rule.childRules.flatMap fun child ↦ [.ident (quotedIdent (nodeName child.id))]) ++
          (.symbol '}' :: attributeTokens [(atom "style", atom "dashed"),
            (atom "label", quotedIdent "parent/child")] ++ [.symbol ';']) := by
      simp [Statement.tokens, List.map_eq_flatMap, List.flatMap_assoc]
    rw [List.flatMap_cons, List.flatMap_nil, List.append_nil, htokens]
    exact hreads.congr (by simp)

theorem readsIf_ruleText (rules : List Rule) (rule : Rule) :
    ReadsIf (ruleText rules rule).toList
      ((ruleStatements rules rule).flatMap Statement.tokens) (PlainRule rule) := by
  rw [ruleText, String.toList_append, String.toList_append, ruleStatements, List.flatMap_cons,
    List.flatMap_append, ← List.append_assoc]
  exact (((readsIf_ruleNode rule).append (readsIf_ruleDependency rules rule)).append
    (readsIf_ruleChildren rule)).congr (by simp)

/-! ### The text of the graph -/

/-- The lines before the title. -/
theorem readsIf_graphHeader : ReadsIf graphHeader.toList
    ([.ident (.atom "digraph".toList), .ident (atom "Workflow"), .symbol '{'] ++
      headerStatements.flatMap Statement.tokens) True := by
  have hname : ReadsIf "digraph Workflow \x7b\n".toList _ True :=
    readsIf_of_scan (by decide : scan 10 _ =
      some [.ident (.atom "digraph".toList), .ident (atom "Workflow"), .symbol '{'])
  have hrankdir : ReadsIf "  rankdir=TB;\n".toList _ True :=
    readsIf_of_scan (by decide : scan 10 _ =
      some (Statement.assign (atom "rankdir") (atom "TB")).tokens)
  have hnode : ReadsIf "  node [shape=box, style=filled, fillcolor=lightblue];\n".toList _ True :=
    readsIf_of_scan (by decide : scan 30 _ = some (Statement.defaults (atom "node")
      [(atom "shape", atom "box"), (atom "style", atom "filled"),
        (atom "fillcolor", atom "lightblue")]).tokens)
  have hedge : ReadsIf "  edge [arrowhead=vee];\n\n".toList _ True :=
    readsIf_of_scan (by decide : scan 20 _ =
      some (Statement.defaults (atom "edge") [(atom "arrowhead", atom "vee")]).tokens)
  have htext : graphHeader.toList = "digraph Workflow \x7b\n".toList ++ "  rankdir=TB;\n".toList ++
      "  node [shape=box, style=filled, fillcolor=lightblue];\n".toList ++
      "  edge [arrowhead=vee];\n\n".toList := by
    unfold graphHeader
    simp only [String.toList_append]
  rw [htext]
  exact (((hname.append hrankdir).append hnode).append hedge).congr (by simp)

theorem readsIf_graphTitle (w : Workflow) : ReadsIf (graphTitle w).toList
    ((titleStatements w).flatMap Statement.tokens) (Quotable false w.description.toList) := by
  have hopen : ReadsIf "  label=".toList [.ident (atom "label"), .symbol '='] True :=
    readsIf_of_scan (by decide : scan 5 _ = _)
  have hloc : ReadsIf (";\n" ++ "  labelloc=t;\n\n").toList
      (.symbol ';' :: (Statement.assign (atom "labelloc") (atom "t")).tokens) True :=
    readsIf_of_scan (by decide : scan 20 _ = _)
  have htext : (graphTitle w).toList = "  label=".toList ++
      ('"' :: ((labelText "Workflow " w.id w.description).toList ++ ['"'])) ++
      (";\n" ++ "  labelloc=t;\n\n").toList := by
    simp [graphTitle]
  rw [htext]
  refine ((hopen.append (readsIf_quoted _)).append hloc).congr ?_
  simp [quotable_labelText (by decide : Quotable false "Workflow ".toList)]

theorem lexes_toGraph_iff (w : Workflow) : Lexes w.toGraph.toList w.graph.tokens ↔
    Quotable false w.description.toList ∧ ∀ rule ∈ nodesOf w.rules, PlainRule rule := by
  have hrules : ReadsIf (collectRules w.rules w.rules).toList
      (((nodesOf w.rules).flatMap (ruleStatements w.rules)).flatMap Statement.tokens)
      (∀ rule ∈ nodesOf w.rules, PlainRule rule) := by
    rw [collectRules_eq, List.flatMap_assoc]
    exact ReadsIf.flatMap fun rule _ ↦ readsIf_ruleText w.rules rule
  have hend : ReadsIf "\x7d\n".toList [.symbol '}'] True :=
    readsIf_of_scan (by decide : scan 3 _ = _)
  have hall := ((readsIf_graphHeader.append (readsIf_graphTitle w)).append hrules).append hend
  have htokens : w.graph.tokens =
      [.ident (.atom "digraph".toList), .ident (atom "Workflow"), .symbol '{'] ++
        headerStatements.flatMap Statement.tokens ++ (titleStatements w).flatMap Statement.tokens ++
        ((nodesOf w.rules).flatMap (ruleStatements w.rules)).flatMap Statement.tokens ++
        [.symbol '}'] := by
    rw [Digraph.tokens, Workflow.graph, List.flatMap_append, List.flatMap_append]
    rfl
  rw [Workflow.toGraph, String.toList_append, String.toList_append, String.toList_append, htokens]
  exact hall.lexes_iff.trans (by simp)

/-- The node statements of the digraph are those of the rules of the tree. -/
theorem graph_nodes (w : Workflow) : w.graph.nodes =
    (nodesOf w.rules).map fun rule ↦ (quotedIdent (nodeName rule.id), nodeAttributes rule) := by
  have hrule (rule : Rule) : (ruleStatements w.rules rule).filterMap Statement.node? =
      [(quotedIdent (nodeName rule.id), nodeAttributes rule)] := by
    have hdependency : (dependencyStatements w.rules rule).filterMap Statement.node? = [] := by
      rw [dependencyStatements]
      split
      · split_ifs <;> rfl
      · rfl
    have hchildren : (childStatements rule).filterMap Statement.node? = [] := by
      rw [childStatements]
      split_ifs <;> rfl
    rw [ruleStatements, List.filterMap_cons, List.filterMap_append, hdependency, hchildren]
    rfl
  rw [Digraph.nodes, Workflow.graph, List.filterMap_append, List.filterMap_flatMap,
    List.map_eq_flatMap]
  simp only [hrule]
  rfl

/-- The text of the graph reads as the digraph that is meant if and only if each rule is active and
has no expression, and no description has an unescaped quote or ends in an escape. -/
theorem toGraph_reads_iff (w : Workflow) : ReadsAsDigraph w ↔
    Quotable false w.description.toList ∧ ∀ rule ∈ nodesOf w.rules, PlainRule rule :=
  ⟨fun h ↦ (lexes_toGraph_iff w).1 h.reads,
    fun h ↦ ⟨(lexes_toGraph_iff w).2 h, w.graph.balanced, graph_nodes w⟩⟩

/-- Behind the label of a rule with the expression `x > 1` stands an `x`, and then a `>`, which
begins no token. -/
theorem expression_graph_not_lexed :
    ¬ ReadsAsDigraph { rules := [{ id := 1, expression := "x > 1" }] } ∧
      ¬ ∃ tokens, Lexes
        (Workflow.toGraph { rules := [{ id := 1, expression := "x > 1" }] }).toList tokens := by
  have hstuck : stuck 80
      (Workflow.toGraph { rules := [{ id := 1, expression := "x > 1" }] }).toList = true := by
    decide +kernel
  exact ⟨fun h ↦ not_lexes_of_stuck hstuck h.reads,
    fun ⟨_, h⟩ ↦ not_lexes_of_stuck hstuck h⟩

end FastRules
