import Mathlib.Data.List.Nodup
import Mathlib.Data.List.Perm.Subperm
import Flambeau.Systems.Strides

namespace Flambeau.Systems

theorem length_flatMap_const {f : ι → List α} {is : List ι} (h : ∀ i ∈ is, (f i).length = n) :
    (is.flatMap f).length = is.length * n := by
  induction is with
  | nil => rw [List.length_nil, Nat.zero_mul]; rfl
  | cons i is ih =>
    rw [List.flatMap_cons, List.length_append, h i List.mem_cons_self, ih fun j hj => h j (List.mem_cons_of_mem _ hj),
      List.length_cons, Nat.succ_mul, Nat.add_comm]

theorem length_pieces_le (size : Nat) (xs : List α) (is : List Nat) : (pieces size xs is).length ≤ is.length * size := by
  induction is with
  | nil => exact Nat.zero_le _
  | cons i is ih =>
    have hcons : pieces size xs (i :: is) = (xs.drop (i * size)).take size ++ pieces size xs is := rfl
    rw [hcons, List.length_append, List.length_cons, Nat.succ_mul, Nat.add_comm]
    exact Nat.add_le_add ih (List.length_take_le _ _)

/-- Pieces of full size are all there. -/
theorem pieces_full {size : Nat} {xs : List α} {is : List Nat} (hsize : 0 < size)
    (h : (pieces size xs is).length = is.length * size) : ∀ i ∈ is, (i + 1) * size ≤ xs.length := by
  induction is with
  | nil => exact nofun
  | cons i is ih =>
    have hcons : pieces size xs (i :: is) = (xs.drop (i * size)).take size ++ pieces size xs is := rfl
    have hrest := length_pieces_le size xs is
    rw [hcons, List.length_append, List.length_take, List.length_drop, List.length_cons, Nat.succ_mul] at h
    intro j hj
    rcases List.mem_cons.mp hj with rfl | hj
    · rw [Nat.succ_mul]
      omega
    · exact ih (by omega) j hj

/-- The same rows and columns of each matrix of a stack. -/
structure Window where
  stack : Nat
  rows : Nat
  cols : Nat
  row : Nat
  height : Nat
  col : Nat
  width : Nat
  rowsFit : row + height ≤ rows
  colsFit : col + width ≤ cols

namespace Window

/-- The cells of a row of a window. -/
def rowCells (x : Window) (i : Nat) : List Nat := span (i * x.cols + x.col) (i * x.cols + x.col + x.width)

/-- The cells by their number in the stack: matrix by matrix, row by row. -/
def cells (x : Window) : List Nat :=
  (List.range x.stack).flatMap fun e =>
    (span (e * x.rows + x.row) (e * x.rows + x.row + x.height)).flatMap x.rowCells

/-- The rows of a window, as a condition on the rows of the stack. -/
def HasRow (x : Window) (i : Nat) : Prop := x.row ≤ i % x.rows ∧ i % x.rows < x.row + x.height

def HasCol (x : Window) (j : Nat) : Prop := x.col ≤ j ∧ j < x.col + x.width

instance (x : Window) (i : Nat) : Decidable (x.HasRow i) := inferInstanceAs (Decidable (_ ∧ _))

instance (x : Window) (j : Nat) : Decidable (x.HasCol j) := inferInstanceAs (Decidable (_ ∧ _))

/-- The whole stack. -/
def size (x : Window) : Nat := x.stack * x.rows * x.cols

/-- The cells are those of the stack in the window, in the order of the stack. -/
theorem cells_eq (x : Window) :
    x.cells = (List.range x.size).filter fun c => decide (x.HasCol (c % x.cols)) && decide (x.HasRow (c / x.cols)) := by
  have hrows : (List.range (x.stack * x.rows)).filter (fun i => decide (x.HasRow i)) =
      (List.range x.stack).flatMap fun e => span (e * x.rows + x.row) (e * x.rows + (x.row + x.height)) :=
    filter_columns x.stack x.rows (Nat.le_add_right _ _) x.rowsFit
  have hcells : (List.range x.size).filter (fun c => decide (x.HasRow (c / x.cols))) =
      ((List.range (x.stack * x.rows)).filter fun i => decide (x.HasRow i)).flatMap fun i =>
        span (i * x.cols) ((i + 1) * x.cols) := filter_rows (fun i => decide (x.HasRow i)) (x.stack * x.rows) x.cols
  have hrow : ∀ i, (span (i * x.cols) ((i + 1) * x.cols)).filter (fun c => decide (x.HasCol (c % x.cols))) =
      x.rowCells i := fun i => by
    have hsame : (span (i * x.cols) ((i + 1) * x.cols)).filter (fun c => decide (x.HasCol (c % x.cols))) =
        (span (i * x.cols) ((i + 1) * x.cols)).filter fun c =>
          decide (i * x.cols + x.col ≤ c ∧ c < i * x.cols + x.col + x.width) := by
      refine List.filter_congr fun c hc => decide_eq_decide.mpr ?_
      obtain ⟨hlow, hhigh⟩ := mem_span.mp hc
      obtain ⟨k, rfl⟩ := Nat.exists_eq_add_of_le hlow
      rw [Nat.succ_mul] at hhigh
      unfold HasCol
      rw [Nat.mul_add_mod_self_right, Nat.mod_eq_of_lt (by omega)]
      omega
    have hfit := x.colsFit
    rw [hsame]
    exact filter_span (by omega) (by omega) (by rw [Nat.succ_mul]; omega)
  rw [← List.filter_filter, hcells, List.filter_flatMap, hrows, List.flatMap_assoc]
  unfold cells
  refine List.flatMap_congr fun e _ => ?_
  rw [Nat.add_assoc]
  exact List.flatMap_congr fun i _ => (hrow i).symm

theorem mem_cells {x : Window} : c ∈ x.cells ↔ c < x.size ∧ x.HasRow (c / x.cols) ∧ x.HasCol (c % x.cols) := by
  rw [cells_eq, List.mem_filter, List.mem_range, Bool.and_eq_true, decide_eq_true_iff, decide_eq_true_iff,
    and_comm (a := x.HasCol _)]

theorem cells_nodup (x : Window) : x.cells.Nodup := by
  rw [cells_eq]
  exact List.nodup_range.filter _

theorem length_cells (x : Window) : x.cells.length = x.stack * (x.height * x.width) := by
  have hrow : ∀ i, (x.rowCells i).length = x.width := fun i => by
    unfold rowCells
    rw [length_span, Nat.add_sub_cancel_left]
  unfold cells
  rw [length_flatMap_const fun e _ => ?_, List.length_range]
  rw [length_flatMap_const fun i _ => hrow i, length_span, Nat.add_sub_cancel_left]

/-- Cells that are all there are no more than there is room for. -/
theorem cells_room {x : Window} {size room : Nat} (hsize : 0 < size) (h : ∀ c ∈ x.cells, (c + 1) * size ≤ room) :
    x.stack * (x.height * x.width * size) ≤ room := by
  have hsub : x.cells ⊆ List.range (room / size) := fun c hc =>
    List.mem_range.mpr ((Nat.le_div_iff_mul_le hsize).mpr (h c hc))
  have hcount := (List.subperm_of_subset x.cells_nodup hsub).length_le
  rw [length_cells, List.length_range] at hcount
  rw [← Nat.mul_assoc]
  exact (Nat.le_div_iff_mul_le hsize).mp hcount

/-- Columns counted in blocks of `n` cells. -/
theorem cells_blocks {x y : Window} (hstack : x.stack = y.stack) (hrows : x.rows = y.rows) (hrow : x.row = y.row)
    (hheight : x.height = y.height) (hcols : x.cols * n = y.cols) (hcol : x.col * n = y.col)
    (hwidth : x.width * n = y.width) : (x.cells.flatMap fun b => span (b * n) ((b + 1) * n)) = y.cells := by
  have hcells : ∀ i, ((x.rowCells i).flatMap fun b => span (b * n) ((b + 1) * n)) = y.rowCells i := fun i => by
    unfold rowCells
    rw [rows_span, Nat.add_mul (i * x.cols + x.col), Nat.add_mul, Nat.mul_assoc, hcols, hcol, hwidth]
  unfold cells
  rw [List.flatMap_assoc, hstack, hrows, hrow, hheight]
  refine List.flatMap_congr fun e _ => ?_
  rw [List.flatMap_assoc]
  exact List.flatMap_congr fun i _ => hcells i

/-- A window of whole rows is one stretch of each matrix. -/
theorem cells_rows {x : Window} (hcol : x.col = 0) (hwidth : x.width = x.cols) :
    x.cells = (List.range x.stack).flatMap fun e =>
      span ((e * x.rows + x.row) * x.cols) ((e * x.rows + x.row + x.height) * x.cols) := by
  unfold cells
  refine List.flatMap_congr fun e _ => ?_
  rw [← rows_span]
  refine List.flatMap_congr fun i _ => ?_
  unfold rowCells
  rw [hcol, hwidth, Nat.add_zero, Nat.succ_mul]

/-- A window of all rows is one stretch of each row. -/
theorem cells_cols {x : Window} (hrow : x.row = 0) (hheight : x.height = x.rows) :
    x.cells = (List.range x.stack).flatMap fun e => (List.range x.rows).flatMap fun i => x.rowCells (e * x.rows + i) := by
  unfold cells
  refine List.flatMap_congr fun e _ => ?_
  have hspan := span_map_add 0 x.rows (e * x.rows)
  rw [span_zero, Nat.add_zero] at hspan
  rw [hrow, hheight, Nat.add_zero, ← hspan, List.flatMap_map]

/-- One of `w` equal parts of the `n` rows behind `base`. -/
def rowShare (stack rows cols base n : Nat) (fits : base + n ≤ rows) (r : Fin w) : Window where
  stack := stack
  rows := rows
  cols := cols
  row := base + r * (n / w)
  height := n / w
  col := 0
  width := cols
  rowsFit := by
    have hend := share_end_le r.isLt n
    rw [share_end] at hend
    omega
  colsFit := Nat.le_of_eq (Nat.zero_add cols)

/-- One of `w` equal parts of the columns. -/
def colShare (stack rows cols : Nat) (r : Fin w) : Window where
  stack := stack
  rows := rows
  cols := cols
  row := 0
  height := rows
  col := r * (cols / w)
  width := cols / w
  rowsFit := Nat.le_of_eq (Nat.zero_add rows)
  colsFit := by
    have hend := share_end_le r.isLt cols
    rwa [share_end] at hend

section Shares
variable {stack rows cols base n w c : Nat} {r : Fin w}

theorem mem_rowShare {fits : base + n ≤ rows} : c ∈ (rowShare stack rows cols base n fits r).cells ↔
    c < stack * rows * cols ∧ base ≤ c / cols % rows ∧ Share n w r (c / cols % rows - base) := by
  rw [mem_cells]
  refine and_congr_right fun hc => ?_
  have hcol : (rowShare stack rows cols base n fits r).HasCol (c % cols) := by
    refine ⟨Nat.zero_le _, ?_⟩
    change c % cols < 0 + cols
    rw [Nat.zero_add]
    exact Nat.mod_lt c (Nat.pos_of_mul_pos_left (Nat.zero_lt_of_lt hc))
  change (base + r * (n / w) ≤ c / cols % rows ∧ c / cols % rows < base + r * (n / w) + n / w) ∧ _ ↔ _
  refine (and_iff_left hcol).trans ?_
  unfold Share
  rw [share_end]
  omega

theorem mem_colShare : c ∈ (colShare stack rows cols r).cells ↔
    c < stack * rows * cols ∧ Share cols w r (c % cols) := by
  rw [mem_cells]
  refine and_congr_right fun hc => ?_
  have hrow : (colShare stack rows cols r).HasRow (c / cols) := by
    refine ⟨Nat.zero_le _, ?_⟩
    change c / cols % rows < 0 + rows
    rw [Nat.zero_add]
    exact Nat.mod_lt _ (Nat.pos_of_mul_pos_left (Nat.pos_of_mul_pos_right (Nat.zero_lt_of_lt hc)))
  change _ ∧ (r * (cols / w) ≤ c % cols ∧ c % cols < r * (cols / w) + cols / w) ↔ _
  refine (and_iff_right hrow).trans ?_
  unfold Share
  rw [share_end]

/-- Lists that no two ranks share a cell of, and that have every cell. -/
theorem perm_range {lists : Fin w → List Nat} (hnodup : ∀ r, (lists r).Nodup)
    (honce : ∀ r s c, c ∈ lists r → c ∈ lists s → r = s) (hall : ∀ c, (∃ r, c ∈ lists r) ↔ c < n) :
    ((List.finRange w).flatMap lists).Perm (List.range n) := by
  refine (List.perm_ext_iff_of_nodup ?_ List.nodup_range).mpr fun c => ?_
  · refine List.nodup_flatMap.mpr ⟨fun r _ => hnodup r, (List.nodup_finRange w).imp ?_⟩
    intro r s hne c hr hs
    exact hne (honce r s c hr hs)
  · rw [List.mem_flatMap, List.mem_range, ← hall]
    exact ⟨fun ⟨r, _, hr⟩ => ⟨r, hr⟩, fun ⟨r, hr⟩ => ⟨r, List.mem_finRange r, hr⟩⟩

/-- Equal parts of all the rows have every cell once. -/
theorem rowShares_perm (hdvd : rows % w = 0) : ((List.finRange w).flatMap fun r =>
    (rowShare stack rows cols 0 rows (Nat.le_of_eq (Nat.zero_add rows)) r).cells).Perm
      (List.range (stack * rows * cols)) := by
  refine perm_range (fun r => cells_nodup _) (fun r s c hr hs => ?_) fun c => ⟨fun ⟨r, hr⟩ => (mem_rowShare.mp hr).1, fun hc => ?_⟩
  · exact Fin.ext (share_inj (mem_rowShare.mp hr).2.2 (mem_rowShare.mp hs).2.2)
  · have hrows : 0 < rows := Nat.pos_of_mul_pos_left (Nat.pos_of_mul_pos_right (Nat.zero_lt_of_lt hc))
    obtain ⟨r, hr, hshare⟩ := exists_share hdvd (Nat.mod_lt (c / cols) hrows)
    exact ⟨⟨r, hr⟩, mem_rowShare.mpr ⟨hc, Nat.zero_le _, hshare⟩⟩

theorem colShares_perm (hdvd : cols % w = 0) :
    ((List.finRange w).flatMap fun r => (colShare stack rows cols r).cells).Perm (List.range (stack * rows * cols)) := by
  refine perm_range (fun r => cells_nodup _) (fun r s c hr hs => ?_) fun c => ⟨fun ⟨r, hr⟩ => (mem_colShare.mp hr).1, fun hc => ?_⟩
  · exact Fin.ext (share_inj (mem_colShare.mp hr).2 (mem_colShare.mp hs).2)
  · obtain ⟨r, hr, hshare⟩ := exists_share hdvd (Nat.mod_lt c (Nat.pos_of_mul_pos_left (Nat.zero_lt_of_lt hc)))
    exact ⟨⟨r, hr⟩, mem_colShare.mpr ⟨hc, hshare⟩⟩

/-- Equal parts of the front half of the rows, and of the back half. -/
theorem halfShares_perm (hdvd : n % w = 0) (hfront : 0 + n ≤ 2 * n) (hback : n + n ≤ 2 * n) :
    ((List.finRange w).flatMap fun r => (rowShare stack (2 * n) cols 0 n hfront r).cells ++
      (rowShare stack (2 * n) cols n n hback r).cells).Perm (List.range (stack * (2 * n) * cols)) := by
  refine perm_range (fun r => ?_) (fun r s c hr hs => ?_) fun c => ⟨fun ⟨r, hr⟩ => ?_, fun hc => ?_⟩
  · refine List.Nodup.append (cells_nodup _) (cells_nodup _) fun c hfront hback => ?_
    have hlow := (mem_rowShare.mp hfront).2.2.2
    have hhigh := (mem_rowShare.mp hback).2.1
    have hend := share_end_le r.isLt n
    omega
  · rcases List.mem_append.mp hr with hr | hr <;> rcases List.mem_append.mp hs with hs | hs
    · exact Fin.ext (share_inj (mem_rowShare.mp hr).2.2 (mem_rowShare.mp hs).2.2)
    · have hlow := (mem_rowShare.mp hr).2.2.2
      have hhigh := (mem_rowShare.mp hs).2.1
      have hend := share_end_le r.isLt n
      omega
    · have hlow := (mem_rowShare.mp hs).2.2.2
      have hhigh := (mem_rowShare.mp hr).2.1
      have hend := share_end_le s.isLt n
      omega
    · exact Fin.ext (share_inj (mem_rowShare.mp hr).2.2 (mem_rowShare.mp hs).2.2)
  · rcases List.mem_append.mp hr with hr | hr
    · exact (mem_rowShare.mp hr).1
    · exact (mem_rowShare.mp hr).1
  · have hrows : 0 < 2 * n := Nat.pos_of_mul_pos_left (Nat.pos_of_mul_pos_right (Nat.zero_lt_of_lt hc))
    have hlt := Nat.mod_lt (c / cols) hrows
    rcases Nat.lt_or_ge (c / cols % (2 * n)) n with hlow | hhigh
    · obtain ⟨r, hr, hshare⟩ := exists_share hdvd hlow
      exact ⟨⟨r, hr⟩, List.mem_append_left _ (mem_rowShare.mpr ⟨hc, Nat.zero_le _, hshare⟩)⟩
    · obtain ⟨r, hr, hshare⟩ := exists_share hdvd (by omega : c / cols % (2 * n) - n < n)
      exact ⟨⟨r, hr⟩, List.mem_append_right _ (mem_rowShare.mpr ⟨hc, hhigh, hshare⟩)⟩

end Shares
end Window
end Flambeau.Systems
