import DocDigest.FileTree.Lookup

/-!
# What a path depends on

Where a path leads depends on what stands at each location and on nothing else of a tree
(`FileTree.status_congr`).
-/

set_option autoImplicit false

namespace DocDigest

namespace FileTree

/-! ## Trees with the same entries -/

section

variable {t t' : FileTree} (h : t'.get? = t.get?)

include h

theorem isDirectoryAt_congr : t'.isDirectoryAt = t.isDirectoryAt := by
  funext l
  rw [isDirectoryAt, isDirectoryAt, h]

theorem lookUp_congr : t'.lookUp = t.lookUp := by
  funext folder name
  rw [lookUp, lookUp, h]

theorem lookUpAt_congr : t'.lookUpAt = t.lookUpAt := by
  funext s
  rw [lookUpAt, lookUpAt, lookUp_congr h, h]

theorem descend_congr : t'.descend = t.descend := by
  funext follow jump slash folder steps
  induction steps generalizing folder with
  | nil =>
      rfl
  | cons step rest ih =>
      rw [descend, descend, isDirectoryAt_congr h, lookUp_congr h]
      simp only [ih]

theorem route_congr : t'.route = t.route := by
  funext follow links
  induction links with
  | zero =>
      funext folder steps slash
      rw [route, route, descend_congr h]
  | succ links ih =>
      funext folder steps slash
      rw [route, route, descend_congr h, ih]

theorem locate_congr : t'.locate = t.locate := by
  funext follow base p
  rw [locate, locate, route_congr h]

theorem entryAt_congr : t'.entryAt = t.entryAt := by
  funext s
  rw [entryAt, entryAt, lookUpAt_congr h]

theorem status_congr : t'.status = t.status := by
  funext base p
  rw [status, status, locate_congr h, entryAt_congr h]

theorem linkStatus_congr : t'.linkStatus = t.linkStatus := by
  funext base p
  rw [linkStatus, linkStatus, locate_congr h, entryAt_congr h]

theorem isFile_congr : t'.isFile = t.isFile := by
  funext base p
  rw [isFile, isFile, status_congr h]

end

end FileTree

end DocDigest
