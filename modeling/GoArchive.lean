import GoArchive.Filepath.Basic
import GoArchive.Filepath.Clean
import GoArchive.Filepath.Lexical
import GoArchive.Filepath.Rel
import GoArchive.ChrootArchive.Archive
import GoArchive.Mounttree.Host
import GoArchive.Mounttree.SwitchRoot
import GoArchive.Mounttree.Runs
