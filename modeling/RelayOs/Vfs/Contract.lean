import RelayOs.Lib.Bytes

/-!
# What a filesystem talks about

The vocabulary the filesystems, the mount table and the drivers under them share:
error numbers, file types, what `stat` reports and what a directory lists. The
operations themselves are modelled where they are implemented; this file only
names what they exchange.
-/

namespace RelayOs.Vfs

/-- An error number, by its Linux name. -/
inductive Errno
  | ENOENT | EEXIST | ENOTDIR | EISDIR | ENOTEMPTY | ENOSPC | EIO | EROFS | EINVAL
  | ENAMETOOLONG | EXDEV | EBUSY | EFBIG | E2BIG | ENOEXEC | EBADF | ECHILD | EAGAIN
  | ENOMEM | EFAULT | ENOSYS | ESRCH | EPERM | EINTR | EMFILE | ERANGE | EPIPE
  deriving DecidableEq, Repr

/-- The kind of a file. -/
inductive FileType
  | regular | directory | symlink | charDev | blockDev | fifo | socket
  deriving DecidableEq, Repr

/-- An inode number, unique within one filesystem. -/
abbrev Ino := ℕ

/-- What `stat` reports about an inode. -/
structure Stat where
  ino : Ino
  kind : FileType
  /-- Permission bits, set-user-ID, set-group-ID and sticky included. -/
  perm : ℕ
  nlink : ℕ
  uid : ℕ
  gid : ℕ
  size : ℕ
  blocks : ℕ
  blockSize : ℕ
  atime : ℕ
  mtime : ℕ
  ctime : ℕ
  deriving DecidableEq, Repr

/-- One directory entry. -/
structure DirEntry where
  name : Bytes
  ino : Ino
  deriving DecidableEq, Repr

end RelayOs.Vfs
