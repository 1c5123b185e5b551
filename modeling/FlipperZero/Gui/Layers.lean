import Mathlib.Data.List.Nodup
import Mathlib.Data.List.Pairwise
import Mathlib.Logic.Function.Basic

/-! # The layers of the GUI

Each layer is an array of view ports. A view port is added to one of them, and removed from all;
to move it to the front or to the back of its layer, it is removed and put back. Every call holds
the lock of the GUI. A call that fails an assertion is `none`.
-/

namespace FlipperZero.Gui

/-- The layers below `GuiLayerMAX`. -/
inductive GuiLayer
  | none
  | statusBarLeft
  | statusBarRight
  | main
  | fullscreen
  deriving DecidableEq, Repr

def GuiLayer.all : List GuiLayer := [none, statusBarLeft, statusBarRight, main, fullscreen]

inductive ViewPortOrientation
  | horizontal
  | vertical
  deriving DecidableEq, Repr

structure Layers (ViewPort : Type*) where
  layers : GuiLayer → List ViewPort
  /-- Whether the pointer of a view port to the GUI is set. -/
  linked : ViewPort → Bool
  orientation : ViewPort → ViewPortOrientation

namespace Layers

variable {ViewPort σ : Type*}

def guiAlloc (orientation : ViewPort → ViewPortOrientation) : Layers ViewPort where
  layers _ := []
  linked _ := false
  orientation := orientation

def setLayer (gui : Layers ViewPort) (layer : GuiLayer) (array : List ViewPort) :
    Layers ViewPort :=
  { gui with layers := Function.update gui.layers layer array }

section Operations

variable [DecidableEq ViewPort]

def viewPortGuiSet (gui : Layers ViewPort) (viewPort : ViewPort) (linked : Bool) :
    Layers ViewPort :=
  { gui with linked := Function.update gui.linked viewPort linked }

/-- The loop over an array, with the view ports before the iterator and those from it on. A removal
leaves the iterator where it is, at the next view port. -/
def removeLoop (viewPort : ViewPort) (onRemove : σ → Option σ) :
    List ViewPort → List ViewPort → σ → Option (List ViewPort × σ)
  | kept, [], s => some (kept, s)
  | kept, v :: rest, s =>
    if v = viewPort then (onRemove s).bind (removeLoop viewPort onRemove kept rest)
    else removeLoop viewPort onRemove (kept ++ [v]) rest s

def removeFromLayer (viewPort : ViewPort) (onRemove : σ → GuiLayer → Option σ)
    (gui : Layers ViewPort × σ) (i : GuiLayer) : Option (Layers ViewPort × σ) :=
  (removeLoop viewPort (onRemove · i) [] (gui.1.layers i) gui.2).map fun array =>
    (gui.1.setLayer i array.1, array.2)

def removeFrom (viewPort : ViewPort) (onRemove : σ → GuiLayer → Option σ)
    (layers : List GuiLayer) (gui : Layers ViewPort) (s : σ) : Option (Layers ViewPort × σ) :=
  layers.foldlM (removeFromLayer viewPort onRemove) (gui, s)

def guiAddViewPort (gui : Layers ViewPort) (viewPort : ViewPort) (layer : GuiLayer) :
    Option (Layers ViewPort) :=
  if layer = .fullscreen ∨ gui.orientation viewPort ≠ .vertical then
    if ∀ i ∈ GuiLayer.all, ∀ v ∈ gui.layers i, v ≠ viewPort then
      some ((gui.setLayer layer (gui.layers layer ++ [viewPort])).viewPortGuiSet viewPort true)
    else none
  else none

def guiRemoveViewPort (gui : Layers ViewPort) (viewPort : ViewPort) : Option (Layers ViewPort) :=
  (removeFrom viewPort (fun _ _ => some ()) GuiLayer.all (gui.viewPortGuiSet viewPort false) ()).map
    Prod.fst

/-- The layer of a removal, which is the first one. -/
def mark (layer : Option GuiLayer) (i : GuiLayer) : Option (Option GuiLayer) :=
  if layer = none then some (some i) else none

/-- The view port is removed and put back into its layer. -/
def sendViewPort (insert : List ViewPort → List ViewPort) (gui : Layers ViewPort)
    (viewPort : ViewPort) : Option (Layers ViewPort) :=
  (removeFrom viewPort mark GuiLayer.all gui none).bind fun (gui, layer) =>
    layer.map fun layer => gui.setLayer layer (insert (gui.layers layer))

def guiSendViewPortFront (gui : Layers ViewPort) (viewPort : ViewPort) :
    Option (Layers ViewPort) :=
  gui.sendViewPort (fun array => array ++ [viewPort]) viewPort

def guiSendViewPortBack (gui : Layers ViewPort) (viewPort : ViewPort) :
    Option (Layers ViewPort) :=
  gui.sendViewPort (fun array => viewPort :: array) viewPort

inductive Operation (ViewPort : Type*)
  | add (viewPort : ViewPort) (layer : GuiLayer)
  | remove (viewPort : ViewPort)
  | front (viewPort : ViewPort)
  | back (viewPort : ViewPort)

def step (gui : Layers ViewPort) : Operation ViewPort → Option (Layers ViewPort)
  | .add viewPort layer => gui.guiAddViewPort viewPort layer
  | .remove viewPort => gui.guiRemoveViewPort viewPort
  | .front viewPort => gui.guiSendViewPortFront viewPort
  | .back viewPort => gui.guiSendViewPortBack viewPort

def run (gui : Layers ViewPort) (operations : List (Operation ViewPort)) :
    Option (Layers ViewPort) :=
  operations.foldlM step gui

end Operations

/-- A view port occurs once at most, and its pointer is set while it does. -/
structure Placed (gui : Layers ViewPort) : Prop where
  once : (GuiLayer.all.flatMap gui.layers).Nodup
  linked : ∀ viewPort, gui.linked viewPort = true ↔ ∃ i, viewPort ∈ gui.layers i

/-- The view port stays in its layer, and the others in their order. -/
structure Moved [DecidableEq ViewPort] (viewPort : ViewPort) (gui gui' : Layers ViewPort) : Prop where
  own : ∀ i, viewPort ∈ gui'.layers i ↔ viewPort ∈ gui.layers i
  others : ∀ i, (gui'.layers i).filter (· ≠ viewPort) = (gui.layers i).filter (· ≠ viewPort)

/-- The layers of a view port, as often as it occurs in them. -/
def places [DecidableEq ViewPort] (viewPort : ViewPort) (layers : List GuiLayer)
    (gui : Layers ViewPort) : List GuiLayer :=
  layers.flatMap fun i => List.replicate ((gui.layers i).count viewPort) i

def without [DecidableEq ViewPort] (viewPort : ViewPort) (gui : Layers ViewPort) : Layers ViewPort :=
  { gui with layers := fun i => (gui.layers i).filter (· ≠ viewPort) }

variable {gui gui' : Layers ViewPort} {viewPort v : ViewPort} {layer i : GuiLayer}
  {onRemove : σ → GuiLayer → Option σ}

theorem mem_all (i : GuiLayer) : i ∈ GuiLayer.all := by
  cases i <;> decide

theorem setLayer_layers (array : List ViewPort) :
    (gui.setLayer layer array).layers i = if i = layer then array else gui.layers i :=
  Function.update_apply ..

theorem nodup_all : GuiLayer.all.Nodup := by
  decide

/-! ## The invariant -/

theorem once_iff : (GuiLayer.all.flatMap gui.layers).Nodup ↔
    (∀ i, (gui.layers i).Nodup) ∧
      ∀ i j v, v ∈ gui.layers i → v ∈ gui.layers j → i = j := by
  rw [List.nodup_flatMap]
  constructor
  · rintro ⟨hnodup, hdisjoint⟩
    have hsymm : Std.Symm (Function.onFun List.Disjoint gui.layers) :=
      ⟨fun i j h v hj hi => h hi hj⟩
    refine ⟨fun i => hnodup i (mem_all i), fun i j v hi hj => ?_⟩
    by_contra hne
    exact hdisjoint.forall (mem_all i) (mem_all j) hne hi hj
  · rintro ⟨hnodup, hunique⟩
    refine ⟨fun i _ => hnodup i, nodup_all.pairwise_of_forall_ne ?_⟩
    intro i _ j _ hne v hi hj
    exact hne (hunique i j v hi hj)

theorem placed_guiAlloc (orientation : ViewPort → ViewPortOrientation) :
    (guiAlloc orientation).Placed := by
  constructor
  · exact once_iff.mpr ⟨fun i => List.nodup_nil, fun i j v hi => (by cases hi)⟩
  · intro v
    constructor
    · intro h
      cases h
    · rintro ⟨i, hi⟩
      cases hi

theorem placed_of_mem (hnodup : ∀ i, (gui'.layers i).Nodup)
    (hunique : ∀ i j v, v ∈ gui'.layers i → v ∈ gui'.layers j → i = j)
    (hlinked : ∀ v, gui'.linked v = true ↔ ∃ i, v ∈ gui'.layers i) : gui'.Placed :=
  ⟨once_iff.mpr ⟨hnodup, hunique⟩, hlinked⟩

theorem added_layers (i : GuiLayer) :
    (gui.setLayer layer (gui.layers layer ++ [viewPort])).layers i =
      if i = layer then gui.layers i ++ [viewPort] else gui.layers i := by
  rw [setLayer_layers]
  by_cases heq : i = layer
  · rw [if_pos heq, if_pos heq, heq]
  · rw [if_neg heq, if_neg heq]

theorem mem_added_layers {i : GuiLayer} {v : ViewPort} :
    v ∈ (gui.setLayer layer (gui.layers layer ++ [viewPort])).layers i ↔
      v ∈ gui.layers i ∨ i = layer ∧ v = viewPort := by
  rw [added_layers]
  by_cases heq : i = layer <;> simp [heq]

theorem nodup_added_layers {i : GuiLayer} (hnodup : (gui.layers i).Nodup)
    (habsent : viewPort ∉ gui.layers i) :
    ((gui.setLayer layer (gui.layers layer ++ [viewPort])).layers i).Nodup := by
  rw [added_layers]
  split
  · rw [← List.concat_eq_append]
    exact hnodup.concat habsent
  · exact hnodup

variable [DecidableEq ViewPort]

theorem removeLoop_eq (kept rest : List ViewPort) (s : σ) :
    removeLoop viewPort (onRemove · i) kept rest s =
      ((List.replicate (rest.count viewPort) i).foldlM onRemove s).map fun s =>
        (kept ++ rest.filter (· ≠ viewPort), s) := by
  induction rest generalizing kept s with
  | nil => simp [removeLoop]
  | cons v rest ih =>
    by_cases heq : v = viewPort
    · subst heq
      rw [removeLoop, if_pos rfl, List.count_cons_self, List.replicate_succ, List.foldlM_cons]
      cases onRemove s i with
      | none => rfl
      | some s => simpa using ih kept s
    · rw [removeLoop, if_neg heq, ih, List.count_cons_of_ne heq]
      simp [heq]

theorem removeFromLayer_eq (gui : Layers ViewPort) (s : σ) :
    removeFromLayer viewPort onRemove (gui, s) i =
      ((List.replicate ((gui.layers i).count viewPort) i).foldlM onRemove s).map fun s =>
        (gui.setLayer i ((gui.layers i).filter (· ≠ viewPort)), s) := by
  rw [removeFromLayer, removeLoop_eq, Option.map_map]
  rfl

theorem places_setLayer {layers : List GuiLayer} (hlayer : layer ∉ layers)
    (array : List ViewPort) :
    places viewPort layers (gui.setLayer layer array) = places viewPort layers gui := by
  apply List.flatMap_congr
  intro i hi
  have hne : i ≠ layer := by
    rintro rfl
    exact hlayer hi
  rw [setLayer_layers, if_neg hne]

theorem removeFrom_eq {layers : List GuiLayer} (hnodup : layers.Nodup) (gui : Layers ViewPort)
    (s : σ) : removeFrom viewPort onRemove layers gui s =
      ((places viewPort layers gui).foldlM onRemove s).map fun s =>
        ({ gui with layers := fun i =>
            if i ∈ layers then (gui.layers i).filter (· ≠ viewPort) else gui.layers i }, s) := by
  induction layers generalizing gui s with
  | nil => rfl
  | cons i layers ih =>
    obtain ⟨hi, hlayers⟩ := List.nodup_cons.mp hnodup
    have hplaces : places viewPort (i :: layers) gui =
        List.replicate ((gui.layers i).count viewPort) i ++ places viewPort layers gui :=
      List.flatMap_cons
    rw [hplaces, List.foldlM_append, removeFrom, List.foldlM_cons, removeFromLayer_eq]
    cases (List.replicate ((gui.layers i).count viewPort) i).foldlM onRemove s with
    | none => rfl
    | some s =>
      have hrest := ih hlayers (gui.setLayer i ((gui.layers i).filter (· ≠ viewPort))) s
      rw [places_setLayer hi] at hrest
      refine hrest.trans ?_
      have hlayer : (fun j => if j ∈ layers then
          ((gui.setLayer i ((gui.layers i).filter (· ≠ viewPort))).layers j).filter (· ≠ viewPort)
          else (gui.setLayer i ((gui.layers i).filter (· ≠ viewPort))).layers j) =
          fun j => if j ∈ i :: layers then (gui.layers j).filter (· ≠ viewPort)
            else gui.layers j := by
        ext1 j
        rw [setLayer_layers]
        by_cases heq : j = i
        · simp [heq, hi]
        · simp [heq]
      rw [hlayer]
      rfl

theorem foldlM_mark_eq_some_iff {layers : List GuiLayer} {marked : Option GuiLayer} :
    layers.foldlM mark none = some marked ↔ layers = marked.toList := by
  rcases layers with _ | ⟨i, _ | ⟨j, layers⟩⟩
  · cases marked <;> simp
  · cases marked <;> simp [mark]
  · cases marked <;> simp [mark]

theorem removeFrom_all (gui : Layers ViewPort) (s : σ) :
    removeFrom viewPort onRemove GuiLayer.all gui s =
      ((places viewPort GuiLayer.all gui).foldlM onRemove s).map fun s =>
        (gui.without viewPort, s) := by
  rw [removeFrom_eq nodup_all]
  simp only [mem_all, if_true]
  rfl

theorem guiRemoveViewPort_eq : gui.guiRemoveViewPort viewPort =
    some ((gui.viewPortGuiSet viewPort false).without viewPort) := by
  have hfold : ∀ layers : List GuiLayer,
      layers.foldlM (fun _ _ => some ()) () = some () := by
    intro layers
    induction layers with
    | nil => rfl
    | cons i layers ih => exact ih
  rw [guiRemoveViewPort, removeFrom_all, hfold]
  rfl

theorem mem_places {i : GuiLayer} :
    i ∈ places viewPort GuiLayer.all gui ↔ viewPort ∈ gui.layers i := by
  simp [places, mem_all, List.mem_replicate, List.count_eq_zero]

theorem length_places : (places viewPort GuiLayer.all gui).length =
    (GuiLayer.all.flatMap gui.layers).count viewPort := by
  rw [places, List.length_flatMap, List.count_flatMap]
  simp [Function.comp_def]

theorem sendViewPort_eq_some_iff {insert : List ViewPort → List ViewPort} :
    gui.sendViewPort insert viewPort = some gui' ↔
      ∃ layer, places viewPort GuiLayer.all gui = [layer] ∧
        gui' = (gui.without viewPort).setLayer layer
          (insert ((gui.layers layer).filter (· ≠ viewPort))) := by
  rw [sendViewPort, removeFrom_all]
  constructor
  · intro h
    cases hmark : (places viewPort GuiLayer.all gui).foldlM mark none with
    | none =>
      rw [hmark] at h
      cases h
    | some marked =>
      rw [hmark] at h
      cases marked with
      | none => cases h
      | some layer =>
        exact ⟨layer, foldlM_mark_eq_some_iff.mp hmark, (Option.some.inj h).symm⟩
  · rintro ⟨layer, hplaces, rfl⟩
    rw [foldlM_mark_eq_some_iff.mpr (show _ = (some layer).toList from hplaces)]
    rfl

theorem guiAddViewPort_eq_some_iff : gui.guiAddViewPort viewPort layer = some gui' ↔
    (layer = .fullscreen ∨ gui.orientation viewPort ≠ .vertical) ∧
      (∀ i, viewPort ∉ gui.layers i) ∧
      gui' = (gui.setLayer layer (gui.layers layer ++ [viewPort])).viewPortGuiSet viewPort
        true := by
  have hnew : (∀ i ∈ GuiLayer.all, ∀ v ∈ gui.layers i, v ≠ viewPort) ↔
      ∀ i, viewPort ∉ gui.layers i := by
    constructor
    · exact fun h i hmem => h i (mem_all i) viewPort hmem rfl
    · rintro h i - v hv rfl
      exact h i hv
  rw [guiAddViewPort, ← hnew]
  by_cases hvertical : layer = .fullscreen ∨ gui.orientation viewPort ≠ .vertical
  · rw [if_pos hvertical]
    by_cases habsent : ∀ i ∈ GuiLayer.all, ∀ v ∈ gui.layers i, v ≠ viewPort
    · rw [if_pos habsent]
      constructor
      · exact fun h => ⟨hvertical, habsent, (Option.some.inj h).symm⟩
      · exact fun h => congrArg some h.2.2.symm
    · rw [if_neg habsent]
      constructor
      · exact fun h => (by cases h)
      · exact fun h => absurd h.2.1 habsent
  · rw [if_neg hvertical]
    constructor
    · exact fun h => (by cases h)
    · exact fun h => absurd h.1 hvertical

theorem Placed.guiAddViewPort (h : gui.Placed)
    (hadd : gui.guiAddViewPort viewPort layer = some gui') : gui'.Placed := by
  obtain ⟨-, habsent, rfl⟩ := guiAddViewPort_eq_some_iff.mp hadd
  obtain ⟨hnodup, hunique⟩ := once_iff.mp h.once
  apply placed_of_mem
  · exact fun i => nodup_added_layers (hnodup i) (habsent i)
  · intro i j v hi hj
    rcases mem_added_layers.mp hi with hi' | ⟨rfl, hi'⟩
    · rcases mem_added_layers.mp hj with hj' | ⟨rfl, hj'⟩
      · exact hunique i j v hi' hj'
      · exact absurd (hj' ▸ hi') (habsent i)
    · rcases mem_added_layers.mp hj with hj' | ⟨rfl, -⟩
      · exact absurd (hi' ▸ hj') (habsent j)
      · rfl
  · intro v
    show Function.update gui.linked viewPort true v = true ↔ _
    rw [Function.update_apply]
    by_cases heq : v = viewPort
    · rw [if_pos heq]
      exact ⟨fun _ => ⟨layer, mem_added_layers.mpr (Or.inr ⟨rfl, heq⟩)⟩, fun _ => rfl⟩
    · rw [if_neg heq, h.linked]
      constructor
      · rintro ⟨i, hi⟩
        exact ⟨i, mem_added_layers.mpr (Or.inl hi)⟩
      · rintro ⟨i, hi⟩
        rcases mem_added_layers.mp hi with hi' | ⟨-, hi'⟩
        · exact ⟨i, hi'⟩
        · exact absurd hi' heq

theorem Placed.guiRemoveViewPort (h : gui.Placed)
    (hremove : gui.guiRemoveViewPort viewPort = some gui') : gui'.Placed := by
  obtain rfl := Option.some.inj (guiRemoveViewPort_eq.symm.trans hremove)
  obtain ⟨hnodup, hunique⟩ := once_iff.mp h.once
  have hmem : ∀ i v, v ∈ (gui.without viewPort).layers i ↔ v ∈ gui.layers i ∧ v ≠ viewPort := by
    intro i v
    simp [without]
  apply placed_of_mem
  · exact fun i => (hnodup i).filter _
  · intro i j v hi hj
    exact hunique i j v ((hmem i v).mp hi).1 ((hmem j v).mp hj).1
  · intro v
    show Function.update gui.linked viewPort false v = true ↔ _
    rw [Function.update_apply]
    by_cases heq : v = viewPort
    · rw [if_pos heq]
      constructor
      · intro hlinked
        cases hlinked
      · rintro ⟨i, hi⟩
        exact absurd heq ((hmem i v).mp hi).2
    · rw [if_neg heq, h.linked]
      constructor
      · rintro ⟨i, hi⟩
        exact ⟨i, (hmem i v).mpr ⟨hi, heq⟩⟩
      · rintro ⟨i, hi⟩
        exact ⟨i, ((hmem i v).mp hi).1⟩

/-- The view port is put among the others, whose order is kept. -/
structure Inserts (viewPort : ViewPort) (insert : List ViewPort → List ViewPort) : Prop where
  perm : ∀ array, (insert array).Perm (viewPort :: array)
  others : ∀ array, (insert array).filter (· ≠ viewPort) = array.filter (· ≠ viewPort)

theorem inserts_front (viewPort : ViewPort) :
    Inserts viewPort fun array => array ++ [viewPort] where
  perm array := List.perm_append_singleton viewPort array
  others array := by simp

theorem inserts_back (viewPort : ViewPort) : Inserts viewPort fun array => viewPort :: array where
  perm array := List.Perm.refl _
  others array := by simp

section Send

variable {insert : List ViewPort → List ViewPort}

theorem exists_sendViewPort_layers (hsend : gui.sendViewPort insert viewPort = some gui') :
    ∃ layer, (∀ i, viewPort ∈ gui.layers i ↔ i = layer) ∧
      (∀ i, gui'.layers i = if i = layer then insert ((gui.layers i).filter (· ≠ viewPort))
        else gui.layers i) ∧ gui'.linked = gui.linked := by
  obtain ⟨layer, hplaces, rfl⟩ := sendViewPort_eq_some_iff.mp hsend
  have hown : ∀ i, viewPort ∈ gui.layers i ↔ i = layer := by
    intro i
    rw [← mem_places, hplaces, List.mem_singleton]
  refine ⟨layer, hown, ?_, rfl⟩
  intro i
  rw [setLayer_layers]
  by_cases heq : i = layer
  · rw [if_pos heq, if_pos heq, heq]
  · rw [if_neg heq, if_neg heq]
    apply List.filter_eq_self.mpr
    intro v hv
    have hne : v ≠ viewPort := by
      rintro rfl
      exact heq ((hown i).mp hv)
    exact decide_eq_true hne

theorem mem_sendViewPort (hinsert : Inserts viewPort insert)
    (hsend : gui.sendViewPort insert viewPort = some gui') :
    v ∈ gui'.layers i ↔ v ∈ gui.layers i := by
  obtain ⟨layer, hown, hlayers, -⟩ := exists_sendViewPort_layers hsend
  rw [hlayers]
  by_cases heq : i = layer
  · have hmem := (hown i).mpr heq
    rw [if_pos heq, (hinsert.perm _).mem_iff, List.mem_cons, List.mem_filter, decide_eq_true_iff]
    constructor
    · rintro (rfl | ⟨hv, -⟩)
      · exact hmem
      · exact hv
    · intro hv
      by_cases hself : v = viewPort
      · exact Or.inl hself
      · exact Or.inr ⟨hv, hself⟩
  · rw [if_neg heq]

theorem moved_sendViewPort (hinsert : Inserts viewPort insert)
    (hsend : gui.sendViewPort insert viewPort = some gui') : Moved viewPort gui gui' := by
  obtain ⟨layer, -, hlayers, -⟩ := exists_sendViewPort_layers hsend
  constructor
  · exact fun i => mem_sendViewPort hinsert hsend
  · intro i
    rw [hlayers]
    split
    · rw [hinsert.others, List.filter_filter]
      simp only [Bool.and_self]
    · rfl

theorem Placed.sendViewPort (hinsert : Inserts viewPort insert) (h : gui.Placed)
    (hsend : gui.sendViewPort insert viewPort = some gui') : gui'.Placed := by
  obtain ⟨layer, -, hlayers, hlinked⟩ := exists_sendViewPort_layers hsend
  obtain ⟨hnodup, hunique⟩ := once_iff.mp h.once
  have hmem : ∀ i v, v ∈ gui'.layers i ↔ v ∈ gui.layers i := fun i v =>
    mem_sendViewPort hinsert hsend
  apply placed_of_mem
  · intro i
    rw [hlayers]
    split
    · rw [(hinsert.perm _).nodup_iff, List.nodup_cons]
      exact ⟨by simp, (hnodup i).filter _⟩
    · exact hnodup i
  · intro i j v hi hj
    exact hunique i j v ((hmem i v).mp hi) ((hmem j v).mp hj)
  · intro v
    rw [hlinked, h.linked]
    exact exists_congr fun i => (hmem i v).symm

theorem Placed.exists_sendViewPort_iff (h : gui.Placed) :
    (∃ gui', gui.sendViewPort insert viewPort = some gui') ↔ ∃ i, viewPort ∈ gui.layers i := by
  constructor
  · rintro ⟨gui', hsend⟩
    obtain ⟨layer, hown, -⟩ := exists_sendViewPort_layers hsend
    exact ⟨layer, (hown layer).mpr rfl⟩
  · rintro ⟨i, hi⟩
    have hcount := List.nodup_iff_count_le_one.mp h.once viewPort
    have hmem := mem_places.mpr hi
    rw [← length_places] at hcount
    obtain ⟨layer, hplaces⟩ : ∃ layer, places viewPort GuiLayer.all gui = [layer] := by
      rcases hplaces : places viewPort GuiLayer.all gui with _ | ⟨layer, _ | ⟨layer', rest⟩⟩
      · rw [hplaces] at hmem
        cases hmem
      · exact ⟨layer, rfl⟩
      · rw [hplaces] at hcount
        simp at hcount
    exact ⟨_, sendViewPort_eq_some_iff.mpr ⟨layer, hplaces, rfl⟩⟩

end Send

/-! ## Runs -/

theorem Placed.step {operation : Operation ViewPort} (h : gui.Placed)
    (hstep : gui.step operation = some gui') : gui'.Placed := by
  cases operation with
  | add viewPort layer => exact h.guiAddViewPort hstep
  | remove viewPort => exact h.guiRemoveViewPort hstep
  | front viewPort => exact h.sendViewPort (inserts_front viewPort) hstep
  | back viewPort => exact h.sendViewPort (inserts_back viewPort) hstep

theorem Placed.run {operations : List (Operation ViewPort)} (h : gui.Placed)
    (hrun : gui.run operations = some gui') : gui'.Placed := by
  induction operations generalizing gui with
  | nil =>
    obtain rfl := Option.some.inj hrun
    exact h
  | cons operation operations ih =>
    rw [Layers.run, List.foldlM_cons] at hrun
    cases hstep : gui.step operation with
    | none =>
      rw [hstep] at hrun
      cases hrun
    | some next =>
      rw [hstep] at hrun
      exact ih (h.step hstep) hrun

/-- After any calls whose assertions hold, each view port is in one place at most and has its
pointer set while it is in one, and a move keeps its layer and the order of the others. -/
theorem layers_kept (orientation : ViewPort → ViewPortOrientation)
    (operations : List (Operation ViewPort)) (gui : Layers ViewPort)
    (hrun : (guiAlloc orientation).run operations = some gui) :
    gui.Placed ∧ ∀ viewPort gui', gui.guiSendViewPortFront viewPort = some gui' ∨
      gui.guiSendViewPortBack viewPort = some gui' → Moved viewPort gui gui' := by
  constructor
  · exact (placed_guiAlloc orientation).run hrun
  · rintro viewPort gui' (hfront | hback)
    · exact moved_sendViewPort (inserts_front viewPort) hfront
    · exact moved_sendViewPort (inserts_back viewPort) hback

/-- Two view ports, of which the first is moved to the front. -/
theorem layers_kept_front : ∃ gui, (guiAlloc fun _ : Bool => .horizontal).run
      [.add false .main, .add true .main, .front false] = some gui ∧
    gui.layers .main = [true, false] ∧ gui.Placed := by
  obtain ⟨gui, hrun⟩ : ∃ gui, (guiAlloc fun _ : Bool => .horizontal).run
      [.add false .main, .add true .main, .front false] = some gui := ⟨_, rfl⟩
  refine ⟨gui, hrun, ?_, (layers_kept _ _ gui hrun).1⟩
  obtain rfl := Option.some.inj hrun
  rfl

end Layers

end FlipperZero.Gui
