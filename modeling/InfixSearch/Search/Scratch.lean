import InfixSearch.Search.Model
import InfixSearch.Library.Logged

/-!
# The scratch arrays of the search

`find_path_util` collects the characters before a match in `char buf[100]` and the words
that go on from the key in `char path[100]`. `Scratch.findPath` is `find_path` with the
index of every write to the two arrays logged; `Scratch.result_findPath` forgets the
log. A write past the end of an array ends the run (`Scratch.guards_findPathUtil`).
-/

namespace InfixSearch

open Library

namespace SearchT

namespace Scratch

variable {N : Type} [NodeT N]

/-- `traverse_down_util`. -/
def traverseDownUtil (s : SearchT N) :
    ℕ → Ptr → ℤ → Block Byte → ℕ → List Str → Logged ℕ Fault (Block Byte × List Str)
  | 0, _, _, _, _, _ => throw .diverges
  | fuel + 1, node, tailindex, path, pathLen, suffixes => do
    let tail := tailFrom (← s.heap.getTail node) tailindex
    let path ← path.putAll pathLen tail
    let pathLen := pathLen + tail.length
    let (path, suffixes) ← if ← s.heap.getIsLeaf node then do
        let path ← path.put pathLen 0
        pure (path, suffixes ++ [← cstr path])
      else pure (path, suffixes)
    let nodeList ← s.heap.getChildren node
    nodeList.foldlM (fun (path, suffixes) node => traverseDownUtil s fuel node 0 path pathLen suffixes) (path, suffixes)

/-- The loop of `traverse_down_util` over the children of a node. -/
def traverseChildren (s : SearchT N) (fuel pathLen : ℕ) (cs : List Ptr) (st : Block Byte × List Str) :
    Logged ℕ Fault (Block Byte × List Str) :=
  cs.foldlM (fun (path, suffixes) node => traverseDownUtil s fuel node 0 path pathLen suffixes) st

/-- The block of `find_path_util` that reports a match. -/
def reportMatch (s : SearchT N) (node : Option Ptr) (tailindex : ℤ) (subKey : Str) (start : TreePosValT) (origKey : Str)
    (found : FoundT) : Logged ℕ Fault FoundT := do
  let upStack ← s.traverseUp (s.heap.length + 1) (start.1, start.2 - 1) []
  let buf ← (malloc 100).putAll 0 upStack
  let buf ← buf.put upStack.length 0
  let pre ← cstr buf
  let suffixes ← match node with
    | some node => do
      let path ← (malloc 100).putAll 0 origKey
      let (_, suffixes) ← traverseDownUtil s (s.heap.length + 1) node tailindex path origKey.length []
      pure suffixes
    | none => pure [origKey ++ subKey]
  let found :=
    if suffixes.length > 0 then { found with foundKeys := found.foundKeys ++ suffixes.map (pre ++ ·) }
    else { found with foundKeys := found.foundKeys ++ [pre ++ origKey], noSuffix := found.noSuffix + 1 }
  pure (if pre.length ≠ 0 then { found with exactMatch := false } else found)

/-- `find_path_util`. -/
def findPathUtil (s : SearchT N) (start : TreePosValT) (origKey : Str) :
    ℕ → Ptr → ℤ → Str → FoundT → Logged ℕ Fault FoundT
  | 0, _, _, _, _ => throw .diverges
  | fuel + 1, node, tailindex, subKey, found =>
    if subKey.length < 1 then reportMatch s (some node) tailindex subKey start origKey found
    else do
      let nodeTail ← s.heap.getTail node
      match ← matchTail nodeTail tailindex subKey with
      | (tailindex, []) =>
        let exact := (← s.heap.getIsLeaf node) && tailindex == nodeTail.length
        let found := { found with exactMatch := exact }
        if exact then reportMatch s none tailindex [] start origKey found
        else reportMatch s (some node) tailindex [] start origKey found
      | (tailindex, c :: newstr) =>
        if tailindex < nodeTail.length then pure found
        else do
          match ← s.heap.getChild node c with
          | none => pure found
          | some child => findPathUtil s start origKey fuel child 0 (c :: newstr) found

/-- The loop of `find_path`. -/
def findPathLoop (s : SearchT N) (key : Str) : List TreePosValT → FoundT → Logged ℕ Fault FoundT
  | [], found => pure found
  | tpv :: nl, found => do
    let found ← findPathUtil s tpv key (key.length + 1) tpv.1 tpv.2.toInt key found
    if found.exactMatch then pure found else findPathLoop s key nl found

/-- `find_path`. -/
def findPath (s : SearchT N) (key : Str) (foundKeys : List Str) : Logged ℕ Fault FoundT := do
  let tpKey := (← charAt key 0, ← charAt key 1)
  match s.tpm.lookup tpKey with
  | none => pure ⟨foundKeys, false, 0⟩
  | some nl => findPathLoop s key nl ⟨foundKeys, false, 0⟩

/-! ### Without the log -/

theorem result_traverseDownUtil (s : SearchT N) (fuel : ℕ) (node : Ptr) (tailindex : ℤ) (path : Block Byte) (pathLen : ℕ)
    (suffixes : List Str) : (traverseDownUtil s fuel node tailindex path pathLen suffixes).result =
      s.traverseDownUtil fuel node tailindex path pathLen suffixes := by
  induction fuel generalizing node tailindex path pathLen suffixes with
  | zero => rfl
  | succ fuel ih =>
    unfold traverseDownUtil SearchT.traverseDownUtil
    simp only [Logged.result_bind, Logged.result_lift, Block.result_putAll]
    refine bind_congr fun t => bind_congr fun path => bind_congr fun leaf => ?_
    cases leaf <;> simp [Logged.result_foldlM, ih]

theorem result_reportMatch (s : SearchT N) (node : Option Ptr) (tailindex : ℤ) (subKey : Str) (start : TreePosValT)
    (origKey : Str) (found : FoundT) : (reportMatch s node tailindex subKey start origKey found).result =
      s.reportMatch node tailindex subKey start origKey found := by
  unfold reportMatch SearchT.reportMatch
  simp only [Logged.result_bind, Logged.result_lift, Block.result_putAll, Block.result_put]
  refine bind_congr fun upStack => bind_congr fun buf => bind_congr fun buf => bind_congr fun pre => ?_
  cases node with
  | none => rfl
  | some node => simp [result_traverseDownUtil]

theorem result_findPathUtil (s : SearchT N) (start : TreePosValT) (origKey : Str) (fuel : ℕ) (node : Ptr) (tailindex : ℤ)
    (subKey : Str) (found : FoundT) : (findPathUtil s start origKey fuel node tailindex subKey found).result =
      s.findPathUtil start origKey fuel node tailindex subKey found := by
  induction fuel generalizing node tailindex subKey found with
  | zero => rfl
  | succ fuel ih =>
    unfold findPathUtil SearchT.findPathUtil
    split_ifs with hkey
    · exact result_reportMatch s (some node) tailindex subKey start origKey found
    · simp only [Logged.result_bind, Logged.result_lift]
      refine bind_congr fun nodeTail => bind_congr fun r => ?_
      match r with
      | (tailindex, []) =>
        simp only [Logged.result_bind, Logged.result_lift]
        refine bind_congr fun leaf => ?_
        split_ifs <;> exact result_reportMatch s _ tailindex [] start origKey _
      | (tailindex, c :: newstr) =>
        simp only
        split_ifs with hlt
        · rfl
        · rw [Logged.result_bind]
          refine bind_congr fun child => ?_
          cases child with
          | none => rfl
          | some child => exact ih child 0 (c :: newstr) found

theorem result_findPathLoop (s : SearchT N) (key : Str) (nl : List TreePosValT) (found : FoundT) :
    (findPathLoop s key nl found).result = s.findPathLoop key nl found := by
  induction nl generalizing found with
  | nil => rfl
  | cons tpv nl ih =>
    rw [findPathLoop, SearchT.findPathLoop, Logged.result_bind, result_findPathUtil]
    refine bind_congr fun found => ?_
    split_ifs
    · rfl
    · exact ih found

/-- Without the log it is `find_path`. -/
theorem result_findPath (s : SearchT N) (key : Str) (foundKeys : List Str) :
    (findPath s key foundKeys).result = s.findPathFound key foundKeys := by
  unfold findPath SearchT.findPathFound
  simp only [Logged.result_bind, Logged.result_lift]
  refine bind_congr fun a => bind_congr fun b => ?_
  cases s.tpm.lookup (a, b) with
  | none => rfl
  | some nl => exact result_findPathLoop s key nl _

/-! ### Writes past the end -/

theorem guards_traverseDownUtil (s : SearchT N) {n : ℕ} (fuel : ℕ) (node : Ptr) (tailindex : ℤ) (path : Block Byte)
    (pathLen : ℕ) (suffixes : List Str) (hpath : path.length ≤ n) :
    (traverseDownUtil s fuel node tailindex path pathLen suffixes).Guards n (·.1.length ≤ n) := by
  induction fuel generalizing node tailindex path pathLen suffixes with
  | zero => exact Logged.guards_lift fun st h => nomatch h
  | succ fuel ih =>
    unfold traverseDownUtil
    apply (Logged.guards_lift fun _ _ => trivial).bind
    intro tail _
    apply (Block.guards_putAll hpath pathLen _).bind
    intro path hpath
    apply (Logged.guards_lift fun _ _ => trivial).bind
    intro leaf _
    have hloop : ∀ st : Block Byte × List Str, st.1.length ≤ n → Logged.Guards n (·.1.length ≤ n) (do
        let nodeList ← (s.heap.getChildren node : Logged ℕ Fault (List Ptr))
        nodeList.foldlM (fun (path, suffixes) node => traverseDownUtil s fuel node 0 path
          (pathLen + (tailFrom tail tailindex).length) suffixes) st) := by
      intro st hst
      apply (Logged.guards_lift fun _ _ => trivial).bind
      intro nodeList _
      exact Logged.guards_foldlM (fun st h c _ => ih c 0 st.1 _ st.2 h) hst
    cases leaf with
    | false => exact (Logged.guards_pure (P := fun st : Block Byte × List Str => st.1.length ≤ n) hpath).bind hloop
    | true =>
      apply (Block.guards_put hpath _ 0).bind
      intro path hpath
      apply (Logged.guards_lift fun _ _ => trivial).bind
      intro pathstr _
      exact (Logged.guards_pure (P := fun st : Block Byte × List Str => st.1.length ≤ n) hpath).bind hloop

theorem guards_reportMatch (s : SearchT N) (node : Option Ptr) (tailindex : ℤ) (subKey : Str) (start : TreePosValT)
    (origKey : Str) (found : FoundT) :
    (reportMatch s node tailindex subKey start origKey found).Guards 100 fun _ => True := by
  have hlen : (malloc 100 : Block Byte).length ≤ 100 := by simp [malloc]
  unfold reportMatch
  apply (Logged.guards_lift fun _ _ => trivial).bind
  intro upStack _
  apply (Block.guards_putAll hlen 0 upStack).bind
  intro buf hbuf
  apply (Block.guards_put hbuf _ 0).bind
  intro buf _
  apply (Logged.guards_lift fun _ _ => trivial).bind
  intro pre _
  cases node with
  | none => exact (Logged.guards_pure (P := fun _ => True) trivial).bind fun _ _ => Logged.guards_pure trivial
  | some node =>
    apply (Block.guards_putAll hlen 0 origKey).bind
    intro path hpath
    apply (guards_traverseDownUtil s _ node tailindex path _ [] hpath).bind
    intro st _
    exact (Logged.guards_pure (P := fun _ => True) trivial).bind fun _ _ => Logged.guards_pure trivial

theorem guards_findPathUtil (s : SearchT N) (start : TreePosValT) (origKey : Str) (fuel : ℕ) (node : Ptr) (tailindex : ℤ)
    (subKey : Str) (found : FoundT) :
    (findPathUtil s start origKey fuel node tailindex subKey found).Guards 100 fun _ => True := by
  induction fuel generalizing node tailindex subKey found with
  | zero => exact Logged.guards_lift fun _ _ => trivial
  | succ fuel ih =>
    unfold findPathUtil
    split_ifs with hkey
    · exact guards_reportMatch s (some node) tailindex subKey start origKey found
    · apply (Logged.guards_lift fun _ _ => trivial).bind
      intro nodeTail _
      apply (Logged.guards_lift fun _ _ => trivial).bind
      intro r _
      match r with
      | (tailindex, []) =>
        apply (Logged.guards_lift fun _ _ => trivial).bind
        intro leaf _
        dsimp only
        split_ifs <;> exact guards_reportMatch s _ tailindex [] start origKey _
      | (tailindex, c :: newstr) =>
        dsimp only
        split_ifs with hlt
        · exact Logged.guards_pure trivial
        · apply (Logged.guards_lift fun _ _ => trivial).bind
          intro child _
          cases child with
          | none => exact Logged.guards_pure trivial
          | some child => exact ih child 0 (c :: newstr) found

theorem guards_findPathLoop (s : SearchT N) (key : Str) (nl : List TreePosValT) (found : FoundT) :
    (findPathLoop s key nl found).Guards 100 fun _ => True := by
  induction nl generalizing found with
  | nil => exact Logged.guards_pure trivial
  | cons tpv nl ih =>
    apply (guards_findPathUtil s tpv key _ tpv.1 _ key found).bind
    intro found' _
    split_ifs
    · exact Logged.guards_pure trivial
    · exact ih found'

end Scratch

end SearchT

end InfixSearch
