import Aufs.Kern.File

/-! What `stat` reports: `minix_getattr` of `kern/inode.c` with `V2_minix_blocks` of
`kern/itree_common.c`. -/

namespace Aufs
open Word

end Aufs
