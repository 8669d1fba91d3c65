import PlainComponents.Proofs.Tree.Parsed

/-!
# Trees that hold their own text

A syntax tree points into a source.  To say what a change does to tree and text at once, this module
gives trees their text: a `Concrete` tree has, between its nodes, the gaps that no node covers, and a
leaf holds its text as a gap of its own.

* `Concrete.text` puts everything together again;
* `Concrete.treesAll` lays concrete trees out from an offset on and gives the syntax trees with the
  spans that they get there;
* `Tree.concrete` copies a subtree out of its source, and `Tree.text_concrete` says that the copy spells
  what the subtree does.
-/

namespace PlainComponents

/-- A tree with its text. -/
inductive Concrete where
  /-- Text that belongs to no node below the one it stands in. -/
  | gap (text : Text)
  /-- A node; where its label says it starts and stops does not matter. -/
  | node (label : Label) (parts : List Concrete)

namespace Concrete

/-! ### Text and layout -/

mutual

/-- The text of a tree. -/
def text : Concrete → Text
  | gap t => t
  | node _ ps => textAll ps

/-- The texts of a list of trees, one after the other. -/
def textAll : List Concrete → Text
  | [] => []
  | p :: ps => p.text ++ textAll ps

end

mutual

/-- The syntax tree of a node that starts at `pos`; a gap has none. -/
def trees : Nat → Concrete → List Tree
  | _, gap _ => []
  | pos, node l ps =>
    [.node { l with start := pos, stop := pos + (textAll ps).byteLength } (treesAll pos ps)]

/-- The syntax trees of a list laid out from `pos` on. -/
def treesAll : Nat → List Concrete → List Tree
  | _, [] => []
  | pos, p :: ps => trees pos p ++ treesAll (pos + p.text.byteLength) ps

end

@[simp] theorem text_gap (t : Text) : (gap t).text = t := rfl

@[simp] theorem text_node (l : Label) (ps : List Concrete) : (node l ps).text = textAll ps := rfl

@[simp] theorem textAll_nil : textAll [] = [] := rfl

@[simp] theorem textAll_cons (p : Concrete) (ps : List Concrete) :
    textAll (p :: ps) = p.text ++ textAll ps := rfl

@[simp] theorem textAll_append (ps qs : List Concrete) :
    textAll (ps ++ qs) = textAll ps ++ textAll qs := by
  induction ps with
  | nil => rfl
  | cons p ps ih => rw [List.cons_append, textAll_cons, textAll_cons, ih, List.append_assoc]

/-! ### Building nodes -/

/-- A named node. -/
def branch (kind : Kind) (field : Option Field) (parts : List Concrete) : Concrete :=
  node ⟨kind, field, true, false, false, false, 0, 0⟩ parts

/-- A named node without children. -/
def leaf (kind : Kind) (field : Option Field) (text : String) : Concrete :=
  branch kind field [gap text.toList]

/-- A token, named by its own text. -/
def token (text : String) : Concrete :=
  node ⟨.other text, none, false, false, false, false, 0, 0⟩ [gap text.toList]

/-- One blank. -/
def space : Concrete :=
  gap [' ']

/-- A type annotation. -/
def annotation (type : Concrete) : Concrete :=
  branch (.other "type_annotation") (some .type) [token ":", space, type]

/-- A parameter list with one parameter, where `note` follows the pattern. -/
def parameterList (pattern note : Concrete) : Concrete :=
  branch .formalParameters (some .parameters)
    [token "(", branch .requiredParameter none [pattern, note], token ")"]

/-- A type applied to one argument. -/
def application (name : String) (argument : Concrete) : Concrete :=
  branch .genericType none [leaf .typeIdentifier (some .name) name,
    branch (.other "type_arguments") (some .typeArguments) [token "<", argument, token ">"]]

/-- The intersection of two types. -/
def intersect (left right : Concrete) : Concrete :=
  branch .intersectionType none [left, space, token "&", space, right]

/-- An arrow function with a bare parameter. -/
def arrow (field : Option Field) (parameter : String) (body : Concrete) : Concrete :=
  branch .arrowFunction field
    [leaf .identifier (some .parameter) parameter, space, token "=>", space, body]

/-- A declarator with a type and a value. -/
def declarator (name : String) (type value : Concrete) : Concrete :=
  branch .variableDeclarator none
    [leaf .identifier (some .name) name, annotation type, space, token "=", space, value]

/-- A source that declares constants. -/
def constants (declarators : List Concrete) : Concrete :=
  branch (.other "program") none [branch (.other "lexical_declaration") none
    (token "const" :: space :: declarators)]

/-- The syntax tree of a source that starts with a node. -/
def tree : Concrete → Tree
  | gap _ => .node ⟨.other "", none, false, false, false, false, 0, 0⟩ []
  | node l ps => .node { l with start := 0, stop := (textAll ps).byteLength } (treesAll 0 ps)

end Concrete

/-! ### Copies -/

namespace Tree

mutual

/-- The copy of a subtree. -/
def concrete (src : Text) : Tree → Concrete
  | node l cs => .node l (parts src l.start cs l.stop)

/-- The copies of trees that stand between two offsets, with the gaps around them. -/
def parts (src : Text) : Nat → List Tree → Nat → List Concrete
  | pos, [], stop => [.gap (src.slice pos stop)]
  | pos, c :: cs, stop => .gap (src.slice pos c.start) :: c.concrete src :: parts src c.stop cs stop

end

/-- A copy spells what its subtree does. -/
theorem text_concrete {src : Text} {t : Tree} (hs : t.WellSpaced) (hb : t.OnBoundaries src) :
    (t.concrete src).text = t.text src := by
  induction t using inductionOn with
  | node l cs ih =>
    -- over the list of children, from any boundary on
    have hparts : ∀ ds, (∀ c ∈ ds, c ∈ cs) → ∀ pos, src.isBoundary pos → Spaced pos ds l.stop →
        Concrete.textAll (parts src pos ds l.stop) = src.slice pos l.stop := by
      intro ds
      induction ds with
      | nil =>
        intro _ pos _ _
        simp [parts]
      | cons c ds ihds =>
        intro hds pos hpos hsp
        obtain ⟨h₁, h₂, h₃⟩ := hsp
        have hc := child_mem_preorder (t := node l cs) (hds c List.mem_cons_self)
        have hcb := hb c hc
        have hlb : src.isBoundary l.stop := (hb _ (mem_preorder_self _)).2
        have hcopy := ih c (hds c List.mem_cons_self) (hs.of_mem hc) (hb.of_mem hc)
        have hrest := ihds (fun d hd => hds d (List.mem_cons_of_mem _ hd)) c.stop hcb.2 h₃
        simp only [parts, Concrete.textAll_cons, Concrete.text_gap]
        rw [hcopy, hrest, text,
          Text.slice_append_slice hcb.1 hcb.2 hlb h₂ h₃.le,
          Text.slice_append_slice hpos hcb.1 hlb h₁ (Nat.le_trans h₂ h₃.le)]
    exact hparts cs (fun _ hc => hc) l.start (hb _ (mem_preorder_self _)).1 hs.children

end Tree

end PlainComponents
