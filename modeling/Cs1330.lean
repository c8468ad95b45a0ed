import Cs1330.Lib.Memory
import Cs1330.Lib.Ring
import Cs1330.Malloc.Client
import Cs1330.Malloc.LongSizes
import Cs1330.Malloc.Measuring
import Cs1330.Malloc.Driver
import Cs1330.Malloc.Ranges
import Cs1330.Malloc.Books
import Cs1330.Malloc.Replay
import Cs1330.Malloc.Consistent
import Cs1330.Malloc.Repl
import Cs1330.Malloc.Balance
import Cs1330.Lib.SearchTree
import Cs1330.Db.Discipline
import Cs1330.Db.Completion
import Cs1330.Db.Cleanup
import Cs1330.Maze.Builds
import Cs1330.Maze.Reader
import Cs1330.Maze.Solutions
import Cs1330.Server.StopGo
import Cs1330.Server.Sections
import Cs1330.Server.Session
import Cs1330.Shell.JobIds
import Cs1330.Shell.BadJobs
import Cs1330.Shell.Iterator
import Cs1330.Shell.Endings
import Cs1330.Shell.Programs
import Cs1330.Shell.Extends
