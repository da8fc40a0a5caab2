import Neptune.Acpi.Table
import Neptune.Boot.Regions
import Neptune.Elf.Loaded
import Neptune.Fat.Account
import Neptune.Fat.Faults
import Neptune.Fat.Handles
import Neptune.Fat.Listing
import Neptune.Fd.Boot
import Neptune.Heap.Align
import Neptune.Mem.Metadata
import Neptune.Mem.Supply
import Neptune.Mmu.Direct
import Neptune.Mmu.Protect
import Neptune.Mmu.Remap
import Neptune.Mmu.Writable
import Neptune.Print.Console
import Neptune.Print.Format
import Neptune.Programs.Shell
import Neptune.Sched.Agree
import Neptune.Sched.Aspace
import Neptune.Sched.Death
import Neptune.Sched.Entry
import Neptune.Sched.RoundRobin
import Neptune.Sched.Wait
import Neptune.Storage.Ata
import Neptune.Storage.Block
import Neptune.Sync.Spinlock
import Neptune.Tty.Line
import Neptune.Tty.Wake
import Neptune.User.Limits
import Neptune.User.Prepare
import Neptune.Vfs.Read
